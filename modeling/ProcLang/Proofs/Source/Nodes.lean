import ProcLang.Proofs.Lexing.Spelling
import ProcLang.Stmt

/-!
# Nodes of a program

The nodes of a program are its expressions, those inside of others included, the links of its
conditionals, and its functions. Each node has a mark, the token that it stands at: a binary
expression stands at its operator, an assignment at its first token, a function at its name.

## Main definitions

* `Program.Node` — nodes; `Node.mark` is the token of a node and `Node.WrittenAs` its text.
* `Expr.nodes`, `Stmt.nodes`, `Program.nodes` — all nodes of a piece of syntax.
* `Node.StandsAmong` — nodes that stand at tokens of a given set.
-/
namespace ProcLang

/-- A node of a program. -/
inductive Program.Node where
  | expr (e : Expr)
  /-- One link of a chain of conditionals. -/
  | link (c : Conditional)
  | declaration (d : Declaration)

namespace Program.Node

/-- Where a node stands. -/
def pos : Program.Node → Option Position
  | .expr e => e.pos
  | .link c => c.pos
  | .declaration d => d.pos

/-- The kind of token that a node stands at. -/
def mark : Program.Node → Token.Kind
  | .expr (.literal value _) => .literal value
  | .expr (.var name _) | .expr (.call name _ _) => .ident name
  | .expr (.binary op _ _ _) => .symbol op.symbol
  | .expr (.return _ _) => .keyword .return
  | .expr (.assign name none _ _) => .ident name
  | .expr (.assign _ (some ty) _ _) => .type ty
  | .link _ => .keyword .if
  | .declaration d => .ident d.name

/-- The texts that a node may have at the place where it stands. -/
def WrittenAs : Program.Node → String → Prop
  | .expr (.literal value _), text => value.SpelledBy text
  | .expr (.var name _), text | .expr (.call name _ _), text => text = name
  | .expr (.binary op _ _ _), text => text = op.text
  | .expr (.return _ _), text => text = "return"
  | .expr (.assign name none _ _), text => text = name
  | .expr (.assign _ (some ty) _ _), text => text = ty.text
  | .link _, text => text = "if"
  | .declaration d, text => text = d.name

/-- The text of its mark is the text of a node. -/
theorem writtenAs_of_spelledBy {n : Program.Node} {text : String} (h : n.mark.SpelledBy text) :
    n.WrittenAs text := by
  cases n with
  | expr e =>
    cases e with
    | literal value pos => exact h
    | var name pos => exact h.1
    | call name args pos => exact h.1
    | binary op lhs rhs pos =>
      have hop : String.ofList op.symbol.spelling = op.text := by cases op <;> rfl
      exact h.trans hop
    | «return» values pos => exact h
    | assign name ty value pos =>
      cases ty with
      | none => exact h.1
      | some ty => exact h
  | link c => exact h
  | declaration d => exact h.1

/-- A node that stands at its mark, which is one of the tokens that `P` holds of. -/
def StandsAmong (P : Token → Prop) (n : Program.Node) : Prop :=
  ∃ t, P t ∧ n.pos = some t.pos ∧ t.kind = n.mark

end Program.Node

/-! ## The nodes of a piece of syntax -/

mutual

/-- The nodes of an expression, each before its parts. -/
def Expr.nodes : Expr → List Program.Node
  | .literal value pos => [.expr (.literal value pos)]
  | .var name pos => [.expr (.var name pos)]
  | .binary op lhs rhs pos => .expr (.binary op lhs rhs pos) :: (lhs.nodes ++ rhs.nodes)
  | .call name args pos => .expr (.call name args pos) :: Expr.nodesAll args
  | .return values pos => .expr (.return values pos) :: Expr.nodesAll values
  | .assign name ty value pos => .expr (.assign name ty value pos) :: value.nodes

def Expr.nodesAll : List Expr → List Program.Node
  | [] => []
  | e :: es => e.nodes ++ Expr.nodesAll es

end

theorem Expr.nodesAll_eq (es : List Expr) : nodesAll es = es.flatMap nodes := by
  induction es with
  | nil => rfl
  | cons e es ih => rw [nodesAll, ih, List.flatMap_cons]

mutual

/-- The nodes of a statement. -/
def Stmt.nodes : Stmt → List Program.Node
  | .expr e => e.nodes
  | .branch c => c.nodes

def Stmt.nodesAll : List Stmt → List Program.Node
  | [] => []
  | s :: ss => s.nodes ++ Stmt.nodesAll ss

/-- The nodes of a conditional. -/
def Conditional.nodes : Conditional → List Program.Node
  | ⟨guard, body, other, pos⟩ =>
    .link ⟨guard, body, other, pos⟩ :: (guard.nodes ++ (Stmt.nodesAll body ++ other.nodes))

/-- The nodes of an alternative. -/
def Otherwise.nodes : Otherwise → List Program.Node
  | .nothing => []
  | .block body => Stmt.nodesAll body
  | .chain c => c.nodes

end

/-- The nodes of a function. -/
def Declaration.nodes (d : Declaration) : List Program.Node :=
  .declaration d :: Stmt.nodesAll d.body

/-- The nodes of a program. -/
def Program.nodes (p : Program) : List Program.Node := p.flatMap Declaration.nodes

end ProcLang

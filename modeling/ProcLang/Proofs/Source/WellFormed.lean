import ProcLang.Stmt

/-!
# Well-formed programs

Static rules for programs. A name means a variable or a function; of several bindings the innermost
and latest one counts. A variable is bound from its assignment to the end of the statement list that
the assignment is in. Values are needed as operands, arguments and guards, and a call of a function
that returns nothing has none. Behind a return nothing is left to do.

## Main definitions

* `Names` — what names mean.
* `Expr.WellFormed` — expressions that have a value.
* `Stmt.WellFormed`, `Stmt.AllWellFormed` — statements and statement lists.
* `Program.WellFormed` — programs.
-/
namespace ProcLang

/-- What a name means. -/
inductive Meaning where
  | variable
  /-- A function, which may return nothing. -/
  | function (arity : Nat) (void : Bool)
deriving DecidableEq

/-- What names mean at a place in a program. -/
abbrev Names : Type := String → Option Meaning

/-- What names mean behind the binding of a variable. -/
def Names.bind (Γ : Names) (name : String) : Names := fun other =>
  if other = name then some .variable else Γ other

mutual

/-- An expression that has a value. -/
def Expr.WellFormed (Γ : Names) : Expr → Prop
  | .literal _ _ => True
  | .var name _ => Γ name = some .variable
  | .binary _ lhs rhs _ => Expr.WellFormed Γ lhs ∧ Expr.WellFormed Γ rhs
  | .call name args _ => Γ name = some (.function args.length false) ∧ Expr.AllWellFormed Γ args
  | .return _ _ | .assign _ _ _ _ => False

def Expr.AllWellFormed (Γ : Names) : List Expr → Prop
  | [] => True
  | e :: es => Expr.WellFormed Γ e ∧ Expr.AllWellFormed Γ es

end

namespace Stmt

/-- Whether a statement returns; a conditional does not, even if all of its cases do. -/
def isReturn : Stmt → Bool
  | .expr (.return _ _) => true
  | _ => false

/-- Whether a statement is a mere literal, which does nothing. -/
def isLiteral : Stmt → Bool
  | .expr (.literal _ _) => true
  | _ => false

theorem isLiteral_iff {s : Stmt} : s.isLiteral = true ↔ ∃ c pos, s = .expr (.literal c pos) := by
  constructor
  · fun_cases isLiteral s <;> simp
  · rintro ⟨c, pos, rfl⟩
    rfl

/-- What names mean behind a statement. -/
def behind (Γ : Names) : Stmt → Names
  | .expr (.assign name _ _ _) => Γ.bind name
  | _ => Γ

end Stmt

mutual

/-- A statement in a function that returns nothing, if `void` says so, or a value. Of the values of
a return only the first counts, and a call as a statement needs no value. -/
def Stmt.WellFormed (void : Bool) (Γ : Names) : Stmt → Prop
  | .expr (.assign _ _ value _) => value.WellFormed Γ
  | .expr (.return [] _) => void = true
  | .expr (.return (value :: _) _) => void = false ∧ value.WellFormed Γ
  | .expr (.call name args _) =>
    (∃ void, Γ name = some (.function args.length void)) ∧ Expr.AllWellFormed Γ args
  | .expr e => e.WellFormed Γ
  | .branch c => Conditional.WellFormed void Γ c

/-- Statements one after the other; behind a return there are literals only. -/
def Stmt.AllWellFormed (void : Bool) (Γ : Names) : List Stmt → Prop
  | [] => True
  | s :: ss => Stmt.WellFormed void Γ s ∧
    if s.isReturn then ∀ s' ∈ ss, s'.isLiteral = true else Stmt.AllWellFormed void (s.behind Γ) ss

/-- A conditional; each of its cases has a scope of its own. -/
def Conditional.WellFormed (void : Bool) (Γ : Names) : Conditional → Prop
  | ⟨guard, body, other, _⟩ =>
    guard.WellFormed Γ ∧ Stmt.AllWellFormed void Γ body ∧ Otherwise.WellFormed void Γ other

/-- An alternative. -/
def Otherwise.WellFormed (void : Bool) (Γ : Names) : Otherwise → Prop
  | .nothing => True
  | .block body => Stmt.AllWellFormed void Γ body
  | .chain c => Conditional.WellFormed void Γ c

end

/-! ## Checking the rules -/

mutual

/-- Checks an expression. -/
def Expr.decWellFormed (Γ : Names) : (e : Expr) → Decidable (e.WellFormed Γ)
  | .literal _ _ => .isTrue trivial
  | .var name _ => inferInstanceAs (Decidable (Γ name = some .variable))
  | .binary _ lhs rhs _ =>
    have := Expr.decWellFormed Γ lhs
    have := Expr.decWellFormed Γ rhs
    inferInstanceAs (Decidable (_ ∧ _))
  | .call _ args _ =>
    have := Expr.decAllWellFormed Γ args
    inferInstanceAs (Decidable (_ ∧ _))
  | .return _ _ | .assign _ _ _ _ => .isFalse id

def Expr.decAllWellFormed (Γ : Names) : (es : List Expr) → Decidable (Expr.AllWellFormed Γ es)
  | [] => .isTrue trivial
  | e :: es =>
    have := Expr.decWellFormed Γ e
    have := Expr.decAllWellFormed Γ es
    inferInstanceAs (Decidable (_ ∧ _))

end

instance (Γ : Names) (e : Expr) : Decidable (e.WellFormed Γ) := Expr.decWellFormed Γ e

instance (Γ : Names) (es : List Expr) : Decidable (Expr.AllWellFormed Γ es) :=
  Expr.decAllWellFormed Γ es

mutual

/-- Checks a statement. -/
def Stmt.decWellFormed (void : Bool) (Γ : Names) : (s : Stmt) → Decidable (s.WellFormed void Γ)
  | .expr (.assign _ _ value _) => inferInstanceAs (Decidable (value.WellFormed Γ))
  | .expr (.return [] _) => inferInstanceAs (Decidable (void = true))
  | .expr (.return (value :: _) _) =>
    inferInstanceAs (Decidable (void = false ∧ value.WellFormed Γ))
  | .expr (.call name args _) =>
    inferInstanceAs (Decidable ((∃ void, Γ name = some (.function args.length void)) ∧
      Expr.AllWellFormed Γ args))
  | .expr (.literal c pos) => inferInstanceAs (Decidable (Expr.WellFormed Γ (.literal c pos)))
  | .expr (.var name pos) => inferInstanceAs (Decidable (Expr.WellFormed Γ (.var name pos)))
  | .expr (.binary op lhs rhs pos) =>
    inferInstanceAs (Decidable (Expr.WellFormed Γ (.binary op lhs rhs pos)))
  | .branch c => Conditional.decWellFormed void Γ c

def Stmt.decAllWellFormed (void : Bool) (Γ : Names) :
    (ss : List Stmt) → Decidable (Stmt.AllWellFormed void Γ ss)
  | [] => .isTrue trivial
  | s :: ss =>
    have := Stmt.decWellFormed void Γ s
    have := Stmt.decAllWellFormed void (s.behind Γ) ss
    inferInstanceAs (Decidable (_ ∧ if s.isReturn then ∀ s' ∈ ss, s'.isLiteral = true else _))

def Conditional.decWellFormed (void : Bool) (Γ : Names) :
    (c : Conditional) → Decidable (c.WellFormed void Γ)
  | ⟨guard, body, other, _⟩ =>
    have := Stmt.decAllWellFormed void Γ body
    have := Otherwise.decWellFormed void Γ other
    inferInstanceAs (Decidable (guard.WellFormed Γ ∧ _ ∧ _))

def Otherwise.decWellFormed (void : Bool) (Γ : Names) :
    (o : Otherwise) → Decidable (o.WellFormed void Γ)
  | .nothing => .isTrue trivial
  | .block body => Stmt.decAllWellFormed void Γ body
  | .chain c => Conditional.decWellFormed void Γ c

end

instance (void : Bool) (Γ : Names) (ss : List Stmt) : Decidable (Stmt.AllWellFormed void Γ ss) :=
  Stmt.decAllWellFormed void Γ ss

/-- What names mean in every body of a program. -/
def Program.names (p : Program) : Names := fun name =>
  (p.find? (·.name == name)).map fun d => .function d.params.length d.returns.isEmpty

/-- What names mean at the start of a body, if `Γ` says what they mean outside. -/
def Declaration.names (d : Declaration) (Γ : Names) : Names :=
  d.params.foldl (fun Γ q => Γ.bind q.name) Γ

/-- A program that keeps the static rules. -/
structure Program.WellFormed (p : Program) : Prop where
  names : (p.map (·.name)).Nodup
  params : ∀ d ∈ p, (d.params.map (·.name)).Nodup
  bodies : ∀ d ∈ p, Stmt.AllWellFormed d.returns.isEmpty (d.names p.names) d.body

instance (p : Program) : Decidable p.WellFormed :=
  decidable_of_iff ((p.map (·.name)).Nodup ∧ (∀ d ∈ p, (d.params.map (·.name)).Nodup) ∧
    ∀ d ∈ p, Stmt.AllWellFormed d.returns.isEmpty (d.names p.names) d.body)
    ⟨fun h => ⟨h.1, h.2.1, h.2.2⟩, fun h => ⟨h.names, h.params, h.bodies⟩⟩

end ProcLang

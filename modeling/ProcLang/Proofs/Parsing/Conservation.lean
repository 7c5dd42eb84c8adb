import ProcLang.Proofs.Parsing.Soundness
import ProcLang.Proofs.Source.Nodes

/-!
# Nothing of an expression is lost

The first pass over an expression loses no token but parentheses and commas, and it leaves literals
and variables in order. The second pass makes one node of each token that is left. A node comes
before its parts, which are among what was read last, so that literals and variables are still in
order when the nodes are written down from the root on.

## Main definitions

* `Expr.leaves`, `Expr.operators`, `Expr.calls` — the nodes of an expression by kind.
* `Expr.Mirrors` — what can be seen in a node and in the token that it was read from alike.

## Main statements

* `Expr.Mirrors.perm_of_parse` — what can be seen in the nodes can be seen in the tokens.
* `Expr.conserved_of_parse` — an expression has the literals, names and operators of its tokens.
-/
namespace ProcLang

/-! ## Literals, operators and names -/

namespace Program.Node

/-- A node without parts. -/
def leaf? : Program.Node → Option Expr
  | .expr (.literal value pos) => some (.literal value pos)
  | .expr (.var name pos) => some (.var name pos)
  | _ => none

/-- The operator of a binary expression, and where it stands. -/
def operator? : Program.Node → Option (Operator × Option Position)
  | .expr (.binary op _ _ pos) => some (op, pos)
  | _ => none

/-- The function that a call is of, and where it stands. -/
def call? : Program.Node → Option (String × Option Position)
  | .expr (.call name _ pos) => some (name, pos)
  | _ => none

end Program.Node

namespace Expr

/-- The literals and variables of an expression from left to right. -/
def leaves (e : Expr) : List Expr := e.nodes.filterMap Program.Node.leaf?

/-- The operators of an expression and where they stand. -/
def operators (e : Expr) : List (Operator × Option Position) :=
  e.nodes.filterMap Program.Node.operator?

/-- The functions that an expression calls, one for each call, and where they stand. -/
def calls (e : Expr) : List (String × Option Position) := e.nodes.filterMap Program.Node.call?

end Expr

namespace Token

variable (o : Outline)

/-- The operator that a token is. -/
def operator? (t : Token) : Option (Operator × Option Position) :=
  match t.kind with
  | .symbol s => (Operator.ofSymbol? s).map (·, some t.pos)
  | _ => none

/-- The function whose name a token is. -/
def call? (t : Token) : Option (String × Option Position) :=
  match t.kind with
  | .ident name => if o.contains name then some (name, some t.pos) else none
  | _ => none

theorem kind_of_isGrouping {t : Token} (h : t.isGrouping = true) :
    t.kind = .symbol .parenOpen ∨ t.kind = .symbol .parenClose ∨ t.kind = .symbol .comma := by
  simpa [isGrouping, isSymbol, or_assoc] using h

/-- A token of an expression is of one of four kinds. -/
theorem kinds_of_inExpr {t : Token} (h : t.inExpr = true) :
    (t.leaf? o).isSome ∨ t.operator?.isSome ∨ (t.call? o).isSome ∨ t.isGrouping = true := by
  obtain ⟨kind, pos⟩ := t
  cases kind with
  | literal value => simp [leaf?]
  | ident name => by_cases hname : o.contains name = true <;> simp [leaf?, call?, hname]
  | symbol s => cases s <;> simp_all [inExpr, Symbol.inExpr, operator?, isGrouping, isSymbol]
  | type | keyword | eof => simp [inExpr] at h

end Token

namespace Expr

variable {o : Outline}

/-! ## Nodes and the tokens they were read from -/

/-- `f` sees in a node what `g` sees in the token that the node was read from, and `g` sees nothing
in the tokens that no node stands at. -/
structure Mirrors {α : Type} (o : Outline) (f : Program.Node → Option α)
    (g : Token → Option α) : Prop where
  literal : ∀ value pos, f (.expr (.literal value (some pos))) = g ⟨.literal value, pos⟩
  var : ∀ name pos, o.contains name = false →
    f (.expr (.var name (some pos))) = g ⟨.ident name, pos⟩
  binary : ∀ op lhs rhs pos,
    f (.expr (.binary op lhs rhs (some pos))) = g ⟨.symbol op.symbol, pos⟩
  call : ∀ name args pos, o.contains name = true →
    f (.expr (.call name args (some pos))) = g ⟨.ident name, pos⟩
  grouping : ∀ t, t.isGrouping = true → g t = none

theorem mirrors_leaf : Mirrors o Program.Node.leaf? (Token.leaf? o) where
  literal _ _ := rfl
  var _ _ h := by simp [Program.Node.leaf?, Token.leaf?, h]
  binary _ _ _ _ := rfl
  call _ _ _ h := by simp [Program.Node.leaf?, Token.leaf?, h]
  grouping t h := by rcases t.kind_of_isGrouping h with h | h | h <;> simp [Token.leaf?, h]

theorem mirrors_operator : Mirrors o Program.Node.operator? Token.operator? where
  literal _ _ := rfl
  var _ _ _ := rfl
  binary _ _ _ _ := by simp [Program.Node.operator?, Token.operator?]
  call _ _ _ _ := rfl
  grouping t h := by
    rcases t.kind_of_isGrouping h with h | h | h <;> simp [Token.operator?, h, Operator.ofSymbol?]

theorem mirrors_call : Mirrors o Program.Node.call? (Token.call? o) where
  literal _ _ := rfl
  var _ _ h := by simp [Program.Node.call?, Token.call?, h]
  binary _ _ _ _ := rfl
  call _ _ _ h := by simp [Program.Node.call?, Token.call?, h]
  grouping t h := by rcases t.kind_of_isGrouping h with h | h | h <;> simp [Token.call?, h]

section Build

variable {α : Type} {f : Program.Node → Option α} {g : Token → Option α}

/-- What `f` sees in finished subexpressions, the earliest first. -/
def seen (f : Program.Node → Option α) (stack : List Expr) : List α :=
  (stack.reverse.flatMap nodes).filterMap f

@[simp] theorem seen_cons (f : Program.Node → Option α) (e : Expr) (stack : List Expr) :
    seen f (e :: stack) = seen f stack ++ e.nodes.filterMap f := by
  simp [seen]

theorem seen_append (f : Program.Node → Option α) (above below : List Expr) :
    seen f (above ++ below) = seen f below ++ seen f above := by
  simp [seen]

theorem filterMap_node (f : Program.Node → Option α) (n : Program.Node)
    (ns : List Program.Node) : (n :: ns).filterMap f = (f n).toList ++ ns.filterMap f := by
  cases h : f n <;> simp [h]

/-- An item adds one node, which comes before its parts and behind everything else. -/
theorem seen_of_reduces {stack stack' : List Expr} {item : Item} (hm : Mirrors o f g)
    (h : Reduces o stack item stack') : ∃ below parts, seen f stack = below ++ parts ∧
      seen f stack' = below ++ ((g item.token).toList ++ parts) ∧
      ((item.token.leaf? o).isSome → parts = []) := by
  cases h with
  | literal value pos =>
    refine ⟨seen f stack, [], by simp, ?_, fun _ => rfl⟩
    simp [nodes, filterMap_node, hm.literal, Item.token]
  | @operator below op lhs rhs pos =>
    refine ⟨seen f below, lhs.nodes.filterMap f ++ rhs.nodes.filterMap f, by simp, ?_,
      by simp [Item.token, Token.leaf?]⟩
    simp [nodes, filterMap_node, hm.binary, Item.token]
  | @var _ name pos hname =>
    have hname : o.contains name = false := by simpa [Outline.contains, Outline.arity?] using hname
    refine ⟨seen f stack, [], by simp, ?_, fun _ => rfl⟩
    simp [nodes, filterMap_node, hm.var name pos hname, Item.token]
  | @call below name args pos hname =>
    have hname : o.contains name = true := by
      obtain ⟨entry, hget, -⟩ := Option.map_eq_some_iff.mp hname
      simp [Outline.contains, hget]
    refine ⟨seen f below, seen f args.reverse, seen_append f _ _, ?_,
      by simp [Item.token, Token.leaf?, hname]⟩
    simp [nodes, nodesAll_eq, filterMap_node, hm.call name _ pos hname, Item.token, seen]

theorem perm_of_build {stack stack' : List Expr} {items : List Item} (hm : Mirrors o f g)
    (h : build o stack items = .ok stack') :
    (seen f stack').Perm (seen f stack ++ (items.map Item.token).filterMap g) := by
  induction items generalizing stack with
  | nil =>
    cases h
    simp
  | cons item items ih =>
    obtain ⟨stack₁, hreduces, h⟩ := exists_of_build_cons h
    obtain ⟨below, parts, hstack, hstack₁, -⟩ := seen_of_reduces hm hreduces
    refine (ih h).trans ?_
    have hitem : (item :: items).map Item.token = [item.token] ++ items.map Item.token := rfl
    have hone : [item.token].filterMap g = (g item.token).toList := by
      cases hg : g item.token <;> simp [hg]
    have hmove : (below ++ ((g item.token).toList ++ parts)).Perm
        (below ++ parts ++ (g item.token).toList) := by
      rw [List.append_assoc]
      exact List.perm_append_comm.append_left _
    rw [hstack, hstack₁, hitem, List.filterMap_append, hone, ← List.append_assoc (below ++ parts)]
    exact hmove.append_right _

/-- Literals and variables stay in order: nodes that come in between have no leaf of their own. -/
theorem leaves_of_build {stack stack' : List Expr} {items : List Item}
    (h : build o stack items = .ok stack') : seen Program.Node.leaf? stack' =
      seen Program.Node.leaf? stack ++ (items.map Item.token).filterMap (Token.leaf? o) := by
  induction items generalizing stack with
  | nil =>
    cases h
    simp
  | cons item items ih =>
    obtain ⟨stack₁, hreduces, h⟩ := exists_of_build_cons h
    obtain ⟨below, parts, hstack, hstack₁, hleaf⟩ := seen_of_reduces mirrors_leaf hreduces
    rw [ih h, hstack, hstack₁, List.map_cons, List.filterMap_cons]
    cases hitem : item.token.leaf? o with
    | none => simp
    | some leaf =>
      obtain rfl := hleaf (by simp [hitem])
      simp

end Build

/-! ## Whole expressions -/

theorem Mirrors.filterMap_kept {α : Type} {f : Program.Node → Option α} {g : Token → Option α}
    (hm : Mirrors o f g) (ts : List Token) : (kept ts).filterMap g = ts.filterMap g := by
  induction ts with
  | nil => rfl
  | cons t ts ih =>
    cases ht : t.isGrouping with
    | true => simp [kept, ht, hm.grouping t ht, ← ih]
    | false => simp [kept, ht, List.filterMap_cons, ← ih]

/-- What can be seen in the nodes of an expression is what can be seen in its tokens. -/
theorem Mirrors.perm_of_parse {α : Type} {f : Program.Node → Option α} {g : Token → Option α}
    (hm : Mirrors o f g) {ts : List Token} {e : Expr} (h : parse o ts = .ok e) :
    (e.nodes.filterMap f).Perm (ts.filterMap g) := by
  obtain ⟨items, hitems, hbuild⟩ := exists_build_of_parse h
  obtain ⟨hperm, -, -⟩ := perm_of_postorder (.covered .nil) hitems
  have htokens : ((items.map Item.token).filterMap g).Perm (ts.filterMap g) := by
    rw [← hm.filterMap_kept ts]
    exact hperm.filterMap g
  simpa [seen] using (perm_of_build hm hbuild).trans htokens

/-- The literals and variables of an expression are those of its tokens and come in the same order;
so are its operators and calls, in some order. Each call has as many arguments as its function
takes. Nothing but parentheses and commas has gone. -/
theorem conserved_of_parse {ts : List Token} {e : Expr} (h : parse o ts = .ok e) :
    e.leaves = ts.filterMap (Token.leaf? o) ∧
      e.operators.Perm (ts.filterMap Token.operator?) ∧
      e.calls.Perm (ts.filterMap (Token.call? o)) ∧ e.Linked o.arity? ∧
      ∀ t ∈ ts, (t.leaf? o).isSome ∨ t.operator?.isSome ∨ (t.call? o).isSome ∨
        t.isGrouping = true := by
  obtain ⟨items, hitems, hbuild⟩ := exists_build_of_parse h
  obtain ⟨-, hleaves, hin⟩ := perm_of_postorder (.covered .nil) hitems
  refine ⟨?_, mirrors_operator.perm_of_parse h, mirrors_call.perm_of_parse h, linked_of_parse h,
    fun t ht => t.kinds_of_inExpr o (hin t ht)⟩
  have hseen := leaves_of_build hbuild
  rw [hleaves] at hseen
  simpa [seen, leaves] using hseen

/-- The tokens of `1(x)f()-y`, which spell no expression but are read like `f(1,x)-y`. -/
def scatteredTokens : List Token :=
  [⟨.literal (.int 1), column 0⟩, ⟨.symbol .parenOpen, column 1⟩, ⟨.ident "x", column 2⟩,
   ⟨.symbol .parenClose, column 3⟩, ⟨.ident "f", column 4⟩, ⟨.symbol .parenOpen, column 5⟩,
   ⟨.symbol .parenClose, column 6⟩, ⟨.symbol .minus, column 7⟩, ⟨.ident "y", column 8⟩]

/-- What is read from `1(x)f()-y`. -/
def scattered : Expr :=
  .binary .sub
    (.call "f" [.literal (.int 1) (column 0), .var "x" (column 2)] (column 4))
    (.var "y" (column 8)) (column 7)

theorem conserved_scattered : parse sampleOutline scatteredTokens = .ok scattered ∧
    scattered.leaves = scatteredTokens.filterMap (Token.leaf? sampleOutline) ∧
      scattered.operators.Perm (scatteredTokens.filterMap Token.operator?) ∧
      scattered.calls.Perm (scatteredTokens.filterMap (Token.call? sampleOutline)) ∧
      scattered.Linked sampleOutline.arity? ∧
      ∀ t ∈ scatteredTokens, (t.leaf? sampleOutline).isSome ∨ t.operator?.isSome ∨
        (t.call? sampleOutline).isSome ∨ t.isGrouping = true := by
  have h : parse sampleOutline scatteredTokens = .ok scattered := rfl
  exact ⟨h, conserved_of_parse h⟩

end Expr
end ProcLang

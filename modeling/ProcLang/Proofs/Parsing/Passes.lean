import ProcLang.Proofs.Parsing.Layout

/-!
# The two passes over an expression

The first pass puts the tokens into postfix order, the second builds a tree from that. While the
first pass goes on, each token is still to come, or it waits on the stack, or it is in the postfix
order. Closing parentheses throws away whatever function waits above them. There never is one: a
function is put on the stack in front of a `(`, and the `(` goes on top of it. So what is read, what
waits and what has been placed are together always the same tokens, parentheses and commas apart;
and literals and variables never wait, so that they keep their order.

## Main definitions

* `Expr.Pending.token`, `Expr.Item.token` — the token that something was read from.
* `Expr.Covered` — stacks on which each function has a parenthesis on top of it.
* `Expr.Reduces` — what an item does to the finished subexpressions.

## Main statements

* `Expr.perm_of_postorder` — the postfix order has the tokens that were given.
* `Expr.forall_of_build` — what all items keep up holds of the tree.
-/
namespace ProcLang

theorem Operator.eq_symbol_of_ofSymbol? {s : Symbol} {op : Operator} (h : ofSymbol? s = some op) :
    s = op.symbol := by
  unfold ofSymbol? at h
  split at h <;> cases h <;> rfl

namespace Token

/-- The literal or variable that a token is; `o` knows the functions. -/
def leaf? (o : Outline) (t : Token) : Option Expr :=
  match t.kind with
  | .literal value => some (.literal value (some t.pos))
  | .ident name => if o.contains name then none else some (.var name (some t.pos))
  | _ => none

/-- Parentheses and commas, which no node stands at. -/
def isGrouping (t : Token) : Bool :=
  t.isSymbol .parenOpen || t.isSymbol .parenClose || t.isSymbol .comma

end Token

namespace Expr

variable {o : Outline}

/-! ## Tokens -/

/-- The token that something on the stack was read from. -/
def Pending.token : Pending → Token
  | .paren pos => ⟨.symbol .parenOpen, pos⟩
  | .call name pos => ⟨.ident name, pos⟩
  | .operator op pos => ⟨.symbol op.symbol, pos⟩

/-- The token that an item of the postfix order was read from. -/
def Item.token : Item → Token
  | .literal value pos => ⟨.literal value, pos⟩
  | .name word pos => ⟨.ident word, pos⟩
  | .operator op pos => ⟨.symbol op.symbol, pos⟩

/-! ## Functions that wait -/

/-- The tokens that nodes stand at. -/
def kept (ts : List Token) : List Token := ts.filter (!·.isGrouping)

@[simp] theorem kept_append (ts us : List Token) : kept (ts ++ us) = kept ts ++ kept us :=
  List.filter_append ts us

theorem kept_items (items : List Item) : kept (items.map Item.token) = items.map Item.token := by
  refine List.filter_eq_self.mpr fun t ht => ?_
  obtain ⟨item, -, rfl⟩ := List.mem_map.mp ht
  cases item with
  | literal | name => rfl
  | operator op => cases op <;> rfl

/-- A stack on which each function has a parenthesis on top of it. -/
inductive Covered (o : Outline) : List Pending → Prop where
  | nil : Covered o []
  | operator {stack : List Pending} (op : Operator) (pos : Position) (h : Covered o stack) :
      Covered o (.operator op pos :: stack)
  | paren {stack : List Pending} (pos : Position) (h : Covered o stack) :
      Covered o (.paren pos :: stack)
  | call {stack : List Pending} {name : String} (pos start : Position)
      (hname : o.contains name = true) (h : Covered o stack) :
      Covered o (.paren pos :: .call name start :: stack)

/-- A stack that is covered as soon as the next token, if that is a parenthesis, is on it. -/
inductive Settled (o : Outline) : List Pending → List Token → Prop where
  | covered {stack : List Pending} {ts : List Token} (h : Covered o stack) : Settled o stack ts
  | calling {stack : List Pending} {ts : List Token} {name : String} (start pos : Position)
      (hname : o.contains name = true) (h : Covered o stack) :
      Settled o (.call name start :: stack) (⟨.symbol .parenOpen, pos⟩ :: ts)

variable {stack stack' : List Pending} {items : List Item}

theorem Covered.tail {pos : Position} (h : Covered o (.paren pos :: stack)) :
    Covered o (finishCall stack).2 := by
  cases h with
  | paren _ h =>
    cases h with
    | nil => exact .nil
    | operator op p h => exact .operator op p h
    | paren p h => exact .paren p h
    | call p q hname h => exact .call p q hname h
  | call _ _ _ h => exact h

/-- What waits is no literal and no variable. -/
theorem Covered.leaf?_eq_none (h : Covered o stack) :
    ∀ t ∈ stack.map Pending.token, t.leaf? o = none := by
  induction h with
  | nil => simp
  | operator op pos _ ih => exact List.forall_mem_cons.mpr ⟨rfl, ih⟩
  | paren pos _ ih => exact List.forall_mem_cons.mpr ⟨rfl, ih⟩
  | call pos start hname _ ih =>
    have hcall : (Pending.call _ start).token.leaf? o = none := if_pos hname
    exact List.forall_mem_cons.mpr ⟨rfl, List.forall_mem_cons.mpr ⟨hcall, ih⟩⟩

/-- Closing parentheses throws nothing away. -/
theorem Covered.closeOperators (hs : Covered o stack)
    (h : closeOperators stack = some (items, stack')) :
    items.map Item.token ++ stack'.map Pending.token = stack.map Pending.token ∧
      Covered o stack' ∧ ∃ pos below, stack' = .paren pos :: below := by
  induction hs generalizing items with
  | nil => cases h
  | operator op pos _ ih =>
    obtain ⟨⟨items', left⟩, hclose, heq⟩ := Option.map_eq_some_iff.mp h
    cases heq
    obtain ⟨htokens, hcovered⟩ := ih hclose
    exact ⟨by simp [htokens, Item.token, Pending.token], hcovered⟩
  | paren pos hs =>
    cases h
    exact ⟨rfl, .paren pos hs, pos, _, rfl⟩
  | call pos start hname hs =>
    cases h
    exact ⟨rfl, .call pos start hname hs, pos, _, rfl⟩

theorem tokens_tighter (op : Operator) (stack : List Pending) :
    (tighter op stack).1.map Item.token ++ (tighter op stack).2.map Pending.token =
      stack.map Pending.token := by
  fun_induction tighter op stack with
  | case1 top pos stack hle items left heq ih =>
    rw [heq] at ih
    simpa [Item.token, Pending.token] using ih
  | case2 | case3 => rfl

theorem Covered.tighter (op : Operator) (hs : Covered o stack) :
    Covered o (tighter op stack).2 := by
  induction hs with
  | nil => exact .nil
  | operator top pos hs ih =>
    simp only [Expr.tighter]
    split
    · exact ih
    · exact .operator top pos hs
  | paren pos hs => exact .paren pos hs
  | call pos start hname hs => exact .call pos start hname hs

theorem tokens_finishCall (stack : List Pending) :
    (finishCall stack).1.map Item.token ++ (finishCall stack).2.map Pending.token =
      stack.map Pending.token := by
  unfold finishCall
  split <;> rfl

theorem tokens_of_flush (h : flush stack = .ok items) :
    items.map Item.token = stack.map Pending.token := by
  induction stack generalizing items with
  | nil =>
    cases h
    rfl
  | cons x stack ih =>
    cases x with
    | paren pos => cases h
    | call name pos | operator op pos =>
      obtain ⟨items', hflush, rfl⟩ := map_eq_ok.mp h
      simp [ih hflush, Item.token, Pending.token]

/-! ## Tokens in the postfix order -/

/-- A token that is placed is put into the postfix order or made to wait; what waited before goes on
waiting or is put into the postfix order. A literal or variable does not wait. -/
structure Placed (o : Outline) (stack : List Pending) (t : Token) (items : List Item)
    (stack' : List Pending) : Prop where
  perm : (items.map Item.token ++ kept (stack'.map Pending.token)).Perm
    (kept (stack.map Pending.token) ++ kept [t])
  leaves : (items.map Item.token).filterMap (Token.leaf? o) = [t].filterMap (Token.leaf? o)
  inExpr : t.inExpr = true

/-- Literals and variables are placed at once. -/
theorem Placed.of_item (item : Item) (hitem : item.token.inExpr = true) :
    Placed o stack item.token [item] stack where
  perm := by
    have hkept : kept [item.token] = [item.token] := kept_items [item]
    rw [hkept]
    exact List.perm_append_comm
  leaves := rfl
  inExpr := hitem

/-- Other tokens wait or are dropped, after some of what waited has stopped waiting. -/
theorem Placed.of_left {t : Token} (hs : Covered o stack) (left : List Pending)
    (hleft : items.map Item.token ++ kept (left.map Pending.token) =
      kept (stack.map Pending.token))
    (hkept : kept (stack'.map Pending.token) = kept [t] ++ kept (left.map Pending.token))
    (hleaf : t.leaf? o = none) (ht : t.inExpr = true) : Placed o stack t items stack' where
  perm := by
    rw [hkept, ← hleft, List.append_assoc]
    exact List.perm_append_comm.append_left _
  leaves := by
    have hitems : ∀ u ∈ items.map Item.token, u.leaf? o = none := fun u hu => by
      have hmem : u ∈ kept (stack.map Pending.token) := by
        rw [← hleft]
        exact List.mem_append_left _ hu
      exact hs.leaf?_eq_none u (List.mem_of_mem_filter hmem)
    simp [List.filterMap_eq_nil_iff.mpr hitems, hleaf]
  inExpr := ht

theorem kept_of_tokens {left : List Pending}
    (h : items.map Item.token ++ left.map Pending.token = stack.map Pending.token) :
    items.map Item.token ++ kept (left.map Pending.token) = kept (stack.map Pending.token) := by
  rw [← h, kept_append, kept_items]

theorem Settled.place {t : Token} {rest : List Token} (hs : Settled o stack (t :: rest))
    (h : place o stack t rest = .ok (items, stack')) :
    Settled o stack' rest ∧ Placed o stack t items stack' := by
  cases hs with
  | @calling stack _ name start pos hname hs =>
    -- The parenthesis covers the function in front of it.
    cases h
    exact ⟨.covered (.call pos start hname hs), by simp [kept, Pending.token, Token.isGrouping,
      Token.isSymbol], rfl, rfl⟩
  | covered hs =>
    obtain ⟨kind, pos⟩ := t
    unfold Expr.place at h
    split at h
    next value hk =>
      cases hk
      cases h
      exact ⟨.covered hs, Placed.of_item (.literal value pos) rfl⟩
    next name hk =>
      cases hk
      split at h
      next hcall =>
        obtain ⟨hopens, hname⟩ := Bool.and_eq_true_iff.mp hcall
        cases h
        cases rest with
        | nil => cases hopens
        | cons next rest =>
          obtain ⟨kind, p⟩ := next
          obtain rfl : kind = .symbol .parenOpen := by
            simpa [opensParen, Token.isSymbol] using hopens
          have hleaf : Token.leaf? o ⟨.ident name, pos⟩ = none := if_pos hname
          exact ⟨.calling pos p hname hs, Placed.of_left hs stack rfl rfl hleaf rfl⟩
      next =>
        cases h
        exact ⟨.covered hs, Placed.of_item (.name name pos) rfl⟩
    next hk =>
      cases hk
      cases h
      exact ⟨.covered (.paren pos hs), Placed.of_left hs stack rfl rfl rfl rfl⟩
    next hk =>
      cases hk
      split at h
      next hclose =>
        cases h
        obtain ⟨htokens, hcovered, -⟩ := hs.closeOperators hclose
        exact ⟨.covered hcovered, Placed.of_left hs _ (kept_of_tokens htokens) rfl rfl rfl⟩
      next => cases h
    next hk =>
      cases hk
      split at h
      next hclose =>
        cases h
        obtain ⟨htokens, hcovered, p, below, rfl⟩ := hs.closeOperators hclose
        refine ⟨.covered hcovered.tail, Placed.of_left hs (finishCall below).2 ?_ rfl rfl rfl⟩
        change List.map Item.token (_ ++ (finishCall below).1) ++ _ = _
        rw [List.map_append, List.append_assoc, kept_of_tokens (tokens_finishCall below),
          ← kept_of_tokens htokens]
        rfl
      next => cases h
    next s _ _ _ hk =>
      cases hk
      split at h
      next op hop =>
        cases h
        rw [Operator.eq_symbol_of_ofSymbol? hop]
        refine ⟨.covered (.operator op pos (hs.tighter op)), ?_⟩
        exact Placed.of_left hs _ (kept_of_tokens (tokens_tighter op stack))
          (by cases op <;> rfl) rfl (by cases op <;> rfl)
      next => cases h
    next => cases h
    next => cases h
    next => cases h

/-- The postfix order has the tokens that waited and those that were given, parentheses and commas
apart; the literals and variables are in the order in which they were given. -/
theorem perm_of_postorder {ts : List Token} (hs : Settled o stack ts)
    (h : postorder o stack ts = .ok items) :
    (items.map Item.token).Perm (kept (stack.map Pending.token) ++ kept ts) ∧
      (items.map Item.token).filterMap (Token.leaf? o) = ts.filterMap (Token.leaf? o) ∧
      ∀ t ∈ ts, t.inExpr = true := by
  induction ts generalizing stack items with
  | nil =>
    cases hs with
    | covered hs =>
      have htokens := tokens_of_flush h
      have hkept : kept (stack.map Pending.token) ++ kept [] = items.map Item.token := by
        rw [← kept_append, List.append_nil, ← htokens, kept_items]
      refine ⟨hkept ▸ .refl _, ?_, by simp⟩
      rw [htokens]
      exact List.filterMap_eq_nil_iff.mpr hs.leaf?_eq_none
  | cons t ts ih =>
    simp only [postorder] at h
    split at h
    next placed stack₁ hplace =>
      obtain ⟨rest, hrest, rfl⟩ := map_eq_ok.mp h
      obtain ⟨hs₁, hplaced⟩ := hs.place hplace
      obtain ⟨hperm, hleaves, hin⟩ := ih hs₁ hrest
      refine ⟨?_, ?_, List.forall_mem_cons.mpr ⟨hplaced.inExpr, hin⟩⟩
      · have hsplit : kept (t :: ts) = kept [t] ++ kept ts := kept_append [t] ts
        rw [List.map_append, hsplit, ← List.append_assoc]
        refine (hperm.append_left _).trans ?_
        rw [← List.append_assoc]
        exact hplaced.perm.append_right _
      · rw [List.map_append, List.filterMap_append, hplaced.leaves, hleaves,
          ← List.filterMap_append]
        rfl
    next => cases h

/-! ## Trees -/

/-- What an item does to the finished subexpressions, the latest first. -/
inductive Reduces (o : Outline) : List Expr → Item → List Expr → Prop where
  | literal {stack : List Expr} (value : Literal) (pos : Position) :
      Reduces o stack (.literal value pos) (.literal value (some pos) :: stack)
  | operator {stack : List Expr} (op : Operator) (lhs rhs : Expr) (pos : Position) :
      Reduces o (rhs :: lhs :: stack) (.operator op pos) (.binary op lhs rhs (some pos) :: stack)
  | var {stack : List Expr} {name : String} (pos : Position) (h : o.arity? name = none) :
      Reduces o stack (.name name pos) (.var name (some pos) :: stack)
  | call {stack : List Expr} {name : String} (args : List Expr) (pos : Position)
      (h : o.arity? name = some args.length) :
      Reduces o (args.reverse ++ stack) (.name name pos) (.call name args (some pos) :: stack)

section Build

variable {stack stack' : List Expr} {item : Item} {items : List Item}

theorem reduces_of_reduce (h : reduce o stack item = .ok stack') : Reduces o stack item stack' := by
  cases item with
  | literal value pos =>
    cases h
    exact .literal value pos
  | operator op pos =>
    simp only [reduce] at h
    split at h
    next rhs lhs stack =>
      cases h
      exact .operator op lhs rhs pos
    next => cases h
  | name name pos =>
    simp only [reduce] at h
    split at h
    next hget =>
      cases h
      exact .var pos (by simp [Outline.arity?, hget])
    next entry hget =>
      split at h
      next => cases h
      next hlen =>
        cases h
        -- The arguments are the latest subexpressions, as many as the function takes.
        have harity : o.arity? name = some (stack.take entry.arity).reverse.length := by
          rw [List.length_reverse, List.length_take_of_le (by omega), Outline.arity?, hget]
          rfl
        have hcall := @Reduces.call o (stack.drop entry.arity) name _ pos harity
        rwa [List.reverse_reverse, List.take_append_drop] at hcall

theorem exists_of_build_cons (h : build o stack (item :: items) = .ok stack') :
    ∃ stack₁, Reduces o stack item stack₁ ∧ build o stack₁ items = .ok stack' := by
  simp only [build] at h
  split at h
  next stack₁ hreduce => exact ⟨stack₁, reduces_of_reduce hreduce, h⟩
  next => cases h

/-- What each of the items keeps up among the finished subexpressions holds of all of them. -/
theorem forall_of_build {Q : Expr → Prop} (h : build o stack items = .ok stack')
    (hstep : ∀ item ∈ items, ∀ before after, Reduces o before item after →
      (∀ e ∈ before, Q e) → ∀ e ∈ after, Q e)
    (hs : ∀ e ∈ stack, Q e) : ∀ e ∈ stack', Q e := by
  induction items generalizing stack with
  | nil =>
    cases h
    exact hs
  | cons item items ih =>
    obtain ⟨hitem, hitems⟩ := List.forall_mem_cons.mp hstep
    obtain ⟨stack₁, hreduces, h⟩ := exists_of_build_cons h
    exact ih h hitems (hitem _ _ hreduces hs)

end Build

theorem exists_build_of_parse {ts : List Token} {e : Expr} (h : parse o ts = .ok e) :
    ∃ items, postorder o [] ts = .ok items ∧ build o [] items = .ok [e] := by
  unfold parse at h
  split at h
  next => cases h
  next items hitems =>
    split at h
    next => cases h
    next e' hbuild =>
      cases h
      exact ⟨items, hitems, hbuild⟩
    next => cases h

end Expr
end ProcLang

import ProcLang.Expr.Parser
import ProcLang.Proofs.Source.Linked

/-!
# Infix form

The grammar of expressions has four levels. Comparisons are made of sums, sums of products, and
products of factors; operators of one level associate to the left. A factor is a literal, a name, a
call, or any expression in parentheses. Reading the tokens of an expression gives the expression
back, with every node at the position of its token.

## Main definitions

* `Level` — the levels of the grammar.
* `Expr.Renders`, `Expr.RendersAll` — the tokens of an expression and of a list of expressions.
* `Expr.Reads` — what reading tokens does to the stack of what waits.

## Main statements

* `Expr.parse_of_spelledBy` — a linked expression is read back from each of its infix forms.
-/
namespace ProcLang

/-- The levels of the grammar of expressions. -/
inductive Level where
  | comparison
  | sum
  | product
  | factor

namespace Level

/-- The operators of a level. -/
def operators : Level → List Operator
  | .comparison => [.lt, .gt, .eq]
  | .sum => [.add, .sub]
  | .product => [.mul, .fdiv, .idiv]
  | .factor => []

/-- What the right operands of a level are. -/
def next : Level → Level
  | .comparison => .sum
  | .sum => .product
  | .product | .factor => .factor

/-- The least precedence of operators that stand on a level outside of parentheses. -/
def rank : Level → Nat
  | .comparison => 1
  | .sum => 2
  | .product => 3
  | .factor => 4

theorem precedence_of_mem {level : Level} {op : Operator} (h : op ∈ level.operators) :
    op.precedence = level.rank := by
  cases level <;> simp only [operators, List.mem_cons, List.not_mem_nil, or_false] at h
  · obtain rfl | rfl | rfl := h <;> rfl
  · obtain rfl | rfl := h <;> rfl
  · obtain rfl | rfl | rfl := h <;> rfl

theorem rank_next_of_mem {level : Level} {op : Operator} (h : op ∈ level.operators) :
    level.next.rank = level.rank + 1 := by
  cases level with
  | factor => cases h
  | comparison | sum | product => rfl

theorem rank_le_next (level : Level) : level.rank ≤ level.next.rank := by
  cases level <;> decide

end Level

namespace Expr

mutual

/-- `Renders level e ts`: the tokens `ts` spell the expression `e` on a level of the grammar, and
the nodes of `e` stand where their tokens do. -/
inductive Renders : Level → Expr → List Token → Prop where
  | literal (value : Literal) (p : Position) :
      Renders .factor (.literal value (some p)) [⟨.literal value, p⟩]
  | var (name : String) (p : Position) : Renders .factor (.var name (some p)) [⟨.ident name, p⟩]
  | call {name : String} {args : List Expr} {ts : List Token} (p l r : Position)
      (ha : RendersAll args ts) : Renders .factor (.call name args (some p))
        (⟨.ident name, p⟩ :: ⟨.symbol .parenOpen, l⟩ :: (ts ++ [⟨.symbol .parenClose, r⟩]))
  | paren {e : Expr} {ts : List Token} (l r : Position) (h : Renders .comparison e ts) :
      Renders .factor e (⟨.symbol .parenOpen, l⟩ :: (ts ++ [⟨.symbol .parenClose, r⟩]))
  | binary {level : Level} {op : Operator} {lhs rhs : Expr} {ts us : List Token} (p : Position)
      (hop : op ∈ level.operators) (hl : Renders level lhs ts) (hr : Renders level.next rhs us) :
      Renders level (.binary op lhs rhs (some p)) (ts ++ ⟨.symbol op.symbol, p⟩ :: us)
  | tighter {level : Level} {e : Expr} {ts : List Token} (h : Renders level.next e ts) :
      Renders level e ts

/-- The tokens of expressions with commas between them. -/
inductive RendersAll : List Expr → List Token → Prop where
  | nil : RendersAll [] []
  | one {e : Expr} {ts : List Token} (h : Renders .comparison e ts) : RendersAll [e] ts
  | cons {e e' : Expr} {es : List Expr} {ts us : List Token} (p : Position)
      (h : Renders .comparison e ts) (hes : RendersAll (e' :: es) us) :
      RendersAll (e :: e' :: es) (ts ++ ⟨.symbol .comma, p⟩ :: us)

end

/-! ## Operators that wait -/

/-- Operators and where they stand, as they wait on the stack. -/
def pending (ops : List (Operator × Position)) : List Pending :=
  ops.map fun (op, pos) => .operator op pos

/-- Operators and where they stand, as they come in the postfix order. -/
def operatorItems (ops : List (Operator × Position)) : List Item :=
  ops.map fun (op, pos) => .operator op pos

/-- A stack on which operators of precedence `k` and more find no operator to take off, and closed
parentheses no call. -/
def Looser (k : Nat) : List Pending → Prop
  | [] | .paren _ :: _ => True
  | .operator op _ :: _ => op.precedence < k
  | .call _ _ :: _ => False

theorem Looser.mono {k k' : Nat} {stack : List Pending} (h : Looser k stack) (hk : k ≤ k') :
    Looser k' stack := by
  match stack with
  | [] | .paren _ :: _ => trivial
  | .operator op _ :: _ => exact Nat.lt_of_lt_of_le h hk

theorem closeOperators_pending (ops : List (Operator × Position)) (p : Position)
    (stack : List Pending) : closeOperators (pending ops ++ .paren p :: stack) =
      some (operatorItems ops, .paren p :: stack) := by
  induction ops with
  | nil => rfl
  | cons op ops ih =>
    change (closeOperators (pending ops ++ _)).map _ = _
    rw [ih]
    rfl

theorem tighter_of_looser {op : Operator} {stack : List Pending} (h : Looser op.precedence stack) :
    tighter op stack = ([], stack) := by
  match stack with
  | [] | .paren _ :: _ => rfl
  | .operator top _ :: _ => simp [tighter, Nat.not_le.mpr h]

theorem tighter_pending {op : Operator} {ops : List (Operator × Position)} {stack : List Pending}
    (hops : ∀ x ∈ ops, op.precedence ≤ x.1.precedence) (hs : Looser op.precedence stack) :
    tighter op (pending ops ++ stack) = (operatorItems ops, stack) := by
  induction ops with
  | nil => exact tighter_of_looser hs
  | cons x ops ih =>
    obtain ⟨hx, hops⟩ := List.forall_mem_cons.mp hops
    change tighter op (.operator x.1 x.2 :: (pending ops ++ stack)) = _
    simp [tighter, hx, ih hops, operatorItems]

theorem flush_pending (ops : List (Operator × Position)) :
    flush (pending ops) = .ok (operatorItems ops) := by
  induction ops with
  | nil => rfl
  | cons x ops ih =>
    change (flush (pending ops)).map _ = _
    rw [ih]
    rfl

theorem finishCall_of_looser {k : Nat} {stack : List Pending} (h : Looser k stack) :
    finishCall stack = ([], stack) := by
  match stack with
  | [] | .paren _ :: _ | .operator _ _ :: _ => rfl

/-! ## Reading -/

/-- Behind the tokens `ts` the stack is `stack'` instead of `stack`, and `items` have been sent to
the postfix order, whatever tokens follow. -/
def Reads (o : Outline) (stack : List Pending) (ts : List Token) (items : List Item)
    (stack' : List Pending) : Prop :=
  ∀ rest, postorder o stack (ts ++ rest) = (postorder o stack' rest).map (items ++ ·)

section Reads

variable {o : Outline} {stack stack₁ stack₂ : List Pending} {ts us : List Token}
  {items items' : List Item}

theorem Reads.nil : Reads o stack [] [] stack := by
  intro rest
  cases h : postorder o stack rest <;> simp [h, Except.map]

theorem Reads.append (h : Reads o stack ts items stack₁) (h' : Reads o stack₁ us items' stack₂) :
    Reads o stack (ts ++ us) (items ++ items') stack₂ := by
  intro rest
  rw [List.append_assoc, h, h']
  cases postorder o stack₂ rest <;> simp [Except.map]

theorem Reads.one {t : Token}
    (h : ∀ rest, place o stack t rest = .ok (items, stack₁)) : Reads o stack [t] items stack₁ := by
  intro rest
  simp [postorder, h]

theorem reads_open (p : Position) :
    Reads o stack [⟨.symbol .parenOpen, p⟩] [] (.paren p :: stack) := .one fun _ => rfl

/-- A comma keeps the parenthesis that it stands in. -/
theorem reads_comma (ops : List (Operator × Position)) (p q : Position) :
    Reads o (pending ops ++ .paren q :: stack) [⟨.symbol .comma, p⟩] (operatorItems ops)
      (.paren q :: stack) := by
  refine .one fun _ => ?_
  simp [place, closeOperators_pending]

/-- A parenthesis is closed, and the call that it belongs to is finished. -/
theorem reads_close (ops : List (Operator × Position)) (p q : Position) :
    Reads o (pending ops ++ .paren q :: stack) [⟨.symbol .parenClose, p⟩]
      (operatorItems ops ++ (finishCall stack).1) (finishCall stack).2 := by
  refine .one fun _ => ?_
  simp [place, closeOperators_pending]

theorem reads_operator {op : Operator} {ops : List (Operator × Position)}
    (hops : ∀ x ∈ ops, op.precedence ≤ x.1.precedence) (hs : Looser op.precedence stack)
    (p : Position) : Reads o (pending ops ++ stack) [⟨.symbol op.symbol, p⟩] (operatorItems ops)
      (.operator op p :: stack) := by
  refine .one fun _ => ?_
  have hplace : ∀ rest, place o (pending ops ++ stack) ⟨.symbol op.symbol, p⟩ rest =
      .ok ((tighter op (pending ops ++ stack)).1,
        .operator op p :: (tighter op (pending ops ++ stack)).2) := by
    intro rest
    cases op <;> rfl
  rw [hplace, tighter_pending hops hs]

/-- A call waits below its parenthesis. -/
theorem reads_callee {name : String} {n : Nat} (h : o.arity? name = some n) (p q : Position) :
    Reads o stack [⟨.ident name, p⟩, ⟨.symbol .parenOpen, q⟩] []
      (.paren q :: .call name p :: stack) := by
  intro rest
  have hc : o.contains name = true := by
    obtain ⟨entry, hget, -⟩ := Option.map_eq_some_iff.mp h
    simp [Outline.contains, hget]
  simp only [List.cons_append, List.nil_append, postorder, place, opensParen, Token.isSymbol,
    beq_self_eq_true, hc, Bool.and_self, if_true]
  cases postorder o (.paren q :: .call name p :: stack) rest <;> rfl

theorem reads_var {name : String} (h : o.arity? name = none) (p : Position) :
    Reads o stack [⟨.ident name, p⟩] [.name name p] stack := by
  refine .one fun rest => ?_
  have hc : o.contains name = false := by
    simpa [Outline.arity?, Outline.contains] using h
  simp [place, hc]

end Reads

/-! ## Building -/

section Build

variable {o : Outline} {es es₁ : List Expr} {items : List Item}

theorem build_append (h : build o es items = .ok es₁) (items' : List Item) :
    build o es (items ++ items') = build o es₁ items' := by
  induction items generalizing es with
  | nil =>
    cases h
    rfl
  | cons item items ih =>
    simp only [build, List.cons_append] at h ⊢
    cases hr : reduce o es item with
    | ok es' =>
      simp only [hr] at h ⊢
      exact ih h
    | error e => simp [hr] at h

/-- A call takes its arguments from the stack. -/
theorem build_call {name : String} {args : List Expr} (h : o.arity? name = some args.length)
    (p : Position) : build o (args.reverse ++ es) [.name name p] =
      .ok (.call name args (some p) :: es) := by
  obtain ⟨entry, hget, harity⟩ := Option.map_eq_some_iff.mp h
  have hlen : ¬ (args.reverse ++ es).length < entry.arity := by simp [harity]
  have htake : (args.reverse ++ es).take entry.arity = args.reverse :=
    List.take_left' (by simp [harity])
  have hdrop : (args.reverse ++ es).drop entry.arity = es :=
    List.drop_left' (by simp [harity])
  simp only [build, reduce, hget, hlen, if_false, htake, hdrop, List.reverse_reverse]

theorem build_var {name : String} (h : o.arity? name = none) (p : Position) :
    build o es [.name name p] = .ok (.var name (some p) :: es) := by
  have hget : o.get? name = none := by simpa [Outline.arity?] using h
  simp [build, reduce, hget]

end Build

/-! ## Completeness -/

mutual

/-- The tokens of an expression leave some of its operators on the stack, none looser than its
level; the postfix order and then these operators build the expression. -/
theorem Renders.reads {level : Level} {e : Expr} {ts : List Token} (h : Renders level e ts)
    {o : Outline} (hl : e.Linked o.arity?) (stack : List Pending) (hs : Looser level.rank stack) :
    ∃ items ops, Reads o stack ts items (pending ops ++ stack) ∧
      (∀ x ∈ ops, level.rank ≤ x.1.precedence) ∧
      ∀ es, build o es (items ++ operatorItems ops) = .ok (e :: es) := by
  match h with
  | .literal value p => exact ⟨[.literal value p], [], .one fun _ => rfl, by simp, fun es => rfl⟩
  | .var name p =>
    have hname : o.arity? name = none := by simpa [Linked] using hl
    exact ⟨[.name name p], [], reads_var hname p, by simp, fun es => build_var hname p⟩
  | @Renders.call name args us p l r ha =>
    obtain ⟨hname, hargs⟩ : o.arity? name = some args.length ∧ AllLinked o.arity? args := by
      simpa [Linked] using hl
    obtain ⟨items, ops, hr, hb⟩ := ha.reads hargs l (.call name p :: stack)
    refine ⟨items ++ operatorItems ops ++ [.name name p], [], ?_, by simp, fun es => ?_⟩
    · have hread := ((reads_callee hname p l).append hr).append (reads_close ops r l)
      simpa [finishCall, pending] using hread
    · rw [List.append_assoc, build_append (hb es)]
      simpa [operatorItems] using build_call hname p
  | .paren l r h =>
    obtain ⟨items, ops, hr, -, hb⟩ := h.reads hl (.paren l :: stack) trivial
    refine ⟨items ++ operatorItems ops, [], ?_, by simp, fun es => ?_⟩
    · have hread := ((reads_open l).append hr).append (reads_close ops r l)
      simpa [finishCall_of_looser hs, pending] using hread
    · simpa [operatorItems] using hb es
  | @Renders.binary _ op lhs rhs us ws p hop hlhs hrhs =>
    obtain ⟨hl₁, hl₂⟩ : lhs.Linked o.arity? ∧ rhs.Linked o.arity? := by simpa [Linked] using hl
    have hrank := Level.precedence_of_mem hop
    obtain ⟨items₁, ops₁, hr₁, ho₁, hb₁⟩ := hlhs.reads hl₁ stack hs
    have hop' := reads_operator (o := o) (hrank ▸ ho₁) (hrank ▸ hs) p
    have htop : Looser level.next.rank (.operator op p :: stack) := by
      rw [Level.rank_next_of_mem hop, ← hrank]
      exact Nat.lt_succ_self _
    obtain ⟨items₂, ops₂, hr₂, ho₂, hb₂⟩ := hrhs.reads hl₂ _ htop
    refine ⟨items₁ ++ operatorItems ops₁ ++ items₂, ops₂ ++ [(op, p)], ?_, ?_, fun es => ?_⟩
    · simpa [pending] using (hr₁.append hop').append hr₂
    · intro x hx
      rcases List.mem_append.mp hx with hx | hx
      · exact Nat.le_trans level.rank_le_next (ho₂ x hx)
      · rw [List.mem_singleton.mp hx]
        exact Nat.le_of_eq hrank.symm
    · have hsplit : operatorItems (ops₂ ++ [(op, p)]) = operatorItems ops₂ ++ [.operator op p] := by
        simp [operatorItems]
      rw [hsplit, List.append_assoc, build_append (hb₁ es), ← List.append_assoc,
        build_append (hb₂ (lhs :: es))]
      rfl
  | .tighter h =>
    have hle := level.rank_le_next
    obtain ⟨items, ops, hr, ho, hb⟩ := h.reads hl stack (hs.mono hle)
    exact ⟨items, ops, hr, fun x hx => Nat.le_trans hle (ho x hx), hb⟩

theorem RendersAll.reads {args : List Expr} {ts : List Token} (h : RendersAll args ts)
    {o : Outline} (hl : AllLinked o.arity? args) (p : Position) (stack : List Pending) :
    ∃ items ops, Reads o (.paren p :: stack) ts items (pending ops ++ .paren p :: stack) ∧
      ∀ es, build o es (items ++ operatorItems ops) = .ok (args.reverse ++ es) := by
  match h with
  | .nil => exact ⟨[], [], .nil, fun es => rfl⟩
  | .one h =>
    obtain ⟨items, ops, hr, -, hb⟩ := h.reads hl.1 (.paren p :: stack) trivial
    exact ⟨items, ops, hr, hb⟩
  | .cons q h hes =>
    obtain ⟨hl₁, hl₂⟩ := hl
    obtain ⟨items₁, ops₁, hr₁, -, hb₁⟩ := h.reads hl₁ (.paren p :: stack) trivial
    obtain ⟨items₂, ops₂, hr₂, hb₂⟩ := hes.reads hl₂ p stack
    refine ⟨items₁ ++ operatorItems ops₁ ++ items₂, ops₂, ?_, fun es' => ?_⟩
    · simpa using (hr₁.append (reads_comma ops₁ q p)).append hr₂
    · rw [List.append_assoc, build_append (hb₁ es'), hb₂]
      simp

end

theorem Renders.parse {e : Expr} {ts : List Token} (h : Renders .comparison e ts) {o : Outline}
    (hl : e.Linked o.arity?) : Expr.parse o ts = .ok e := by
  obtain ⟨items, ops, hr, -, hb⟩ := h.reads hl [] trivial
  have hread := hr []
  rw [List.append_nil, List.append_nil, postorder, flush_pending] at hread
  simp only [Expr.parse, hread, Except.map, hb]

/-- The tokens spell the expression, wherever the nodes of `e` stand. -/
def SpelledBy (e : Expr) (ts : List Token) : Prop :=
  ∃ e', e'.erase = e.erase ∧ Renders .comparison e' ts

/-- A linked expression is read back from each of its infix forms, and its nodes then stand where
their tokens do. -/
theorem parse_of_spelledBy {o : Outline} {e : Expr} {ts : List Token} (hl : e.Linked o.arity?)
    (h : e.SpelledBy ts) :
    ∃ e', parse o ts = .ok e' ∧ e'.erase = e.erase ∧ Renders .comparison e' ts := by
  obtain ⟨e', he, hr⟩ := h
  have hl' : e'.Linked o.arity? := by rwa [← linked_erase, he, linked_erase]
  exact ⟨e', hr.parse hl', he, hr⟩

/-- Two functions, one of which takes two arguments. -/
def sampleOutline : Outline := ⟨[⟨"f", 0, 9, 2⟩, ⟨"g", 10, 14, 0⟩]⟩

/-- The `i`th character of a line. -/
def column (i : Nat) : Position := ⟨i, 1, 1, i + 1⟩

/-- The tree of `f((1-x-2)*y,g())<3`. -/
def sample : Expr :=
  .binary .lt
    (.call "f"
      [.binary .mul
        (.binary .sub
          (.binary .sub (.literal (.int 1) (column 3)) (.var "x" (column 5)) (column 4))
          (.literal (.int 2) (column 7)) (column 6))
        (.var "y" (column 10)) (column 9),
       .call "g" [] (column 12)] (column 0))
    (.literal (.int 3) (column 17)) (column 16)

/-- The tokens of `f((1-x-2)*y,g())<3`. -/
def sampleTokens : List Token :=
  [⟨.ident "f", column 0⟩, ⟨.symbol .parenOpen, column 1⟩, ⟨.symbol .parenOpen, column 2⟩,
   ⟨.literal (.int 1), column 3⟩, ⟨.symbol .minus, column 4⟩, ⟨.ident "x", column 5⟩,
   ⟨.symbol .minus, column 6⟩, ⟨.literal (.int 2), column 7⟩, ⟨.symbol .parenClose, column 8⟩,
   ⟨.symbol .star, column 9⟩, ⟨.ident "y", column 10⟩, ⟨.symbol .comma, column 11⟩,
   ⟨.ident "g", column 12⟩, ⟨.symbol .parenOpen, column 13⟩, ⟨.symbol .parenClose, column 14⟩,
   ⟨.symbol .parenClose, column 15⟩, ⟨.symbol .less, column 16⟩, ⟨.literal (.int 3), column 17⟩]

/-- Nested calls, parentheses and operators of every level. -/
theorem parse_sample : sample.Linked sampleOutline.arity? ∧ sample.SpelledBy sampleTokens ∧
    ∃ e', parse sampleOutline sampleTokens = .ok e' ∧ e'.erase = sample.erase ∧
      Renders .comparison e' sampleTokens := by
  have hlinked : sample.Linked sampleOutline.arity? := by
    simp [sample, Linked, AllLinked, Outline.arity?, Outline.get?, sampleOutline]
  have hdiff := @Renders.binary .sum .sub _ _ _ _ (column 6) (by decide)
    (@Renders.binary .sum .sub _ _ _ _ (column 4) (by decide)
      (.tighter (.tighter (.literal (.int 1) (column 3)))) (.tighter (.var "x" (column 5))))
    (.tighter (.literal (.int 2) (column 7)))
  have hprod := @Renders.binary .product .mul _ _ _ _ (column 9) (by decide)
    (.tighter (.paren (column 2) (column 8) (.tighter hdiff))) (.var "y" (column 10))
  have hcall := @Renders.call "g" _ _ (column 12) (column 13) (column 14) .nil
  have hargs := RendersAll.cons (column 11) (.tighter (.tighter hprod))
    (.one (.tighter (.tighter (.tighter hcall))))
  have hlt := @Renders.binary .comparison .lt _ _ _ _ (column 16) (by decide)
    (.tighter (.tighter (.tighter (@Renders.call "f" _ _ (column 0) (column 1) (column 15) hargs))))
    (.tighter (.tighter (.literal (.int 3) (column 17))))
  have hspelled : sample.SpelledBy sampleTokens := ⟨sample, rfl, hlt⟩
  exact ⟨hlinked, hspelled, parse_of_spelledBy hlinked hspelled⟩

end Expr
end ProcLang

import ProcLang.Proofs.Parsing.Indexed
import ProcLang.Proofs.Parsing.Layout
import ProcLang.Proofs.Parsing.Soundness

/-!
# Readers by index and readers on lists

Expressions and statements are read in the same way by index and on lists of tokens. Where a reader
on lists goes on with the tokens that are left over, one by index goes on with the index at which
they start.

## Main definitions

* `Checked.Agrees` — a reader by index and one on lists do the same.
* `Reaches` — an index stands for the tokens that are left over.

## Main statements

* `Expr.parseAt_eq` — arguments are on the stack when a call takes them.
* `Stmt.parseAt_eq` — blocks are closed, and every reader is called with fewer tokens.
-/
namespace ProcLang

namespace Checked

variable {α β γ δ : Type}

@[simp] theorem of_ok (a : α) : of (.ok a) = .ok a := rfl

/-- Both refuse the tokens for the same reason, or `R` holds of their results. -/
inductive Agrees (R : α → β → Prop) : Checked α → Except ParseError β → Prop where
  | refused (e : ParseError) : Agrees R (.error (.refused e)) (.error e)
  | ok {a : α} {b : β} (h : R a b) : Agrees R (.ok a) (.ok b)

theorem agrees_of (x : Except ParseError α) : Agrees Eq (of x) x := by
  cases x with
  | error e => exact .refused e
  | ok a => exact .ok rfl

theorem Agrees.eq_of {x : Checked α} {y : Except ParseError α} (h : Agrees Eq x y) : x = of y := by
  cases h with
  | refused e => rfl
  | ok h => rw [h, of_ok]

theorem Agrees.bind {R : α → β → Prop} {S : γ → δ → Prop} {x : Checked α} {y : Except ParseError β}
    {j : α → Checked γ} {k : β → Except ParseError δ} (hx : Agrees R x y)
    (hk : ∀ a b, y = .ok b → R a b → Agrees S (j a) (k b)) : Agrees S (x >>= j) (y >>= k) := by
  cases hx with
  | refused e => exact .refused e
  | ok h => exact hk _ _ rfl h

theorem Agrees.map_right {R : α → β → Prop} {S : α → γ → Prop} {x : Checked α}
    {y : Except ParseError β} {f : β → γ} (hx : Agrees R x y) (hf : ∀ a b, R a b → S a (f b)) :
    Agrees S x (y.map f) := by
  cases hx with
  | refused e => exact .refused e
  | ok h => exact .ok (hf _ _ h)

theorem Agrees.of_bind {S : γ → δ → Prop} {x : Except ParseError α} {j : α → Checked γ}
    {k : α → Except ParseError δ} (hk : ∀ a, x = .ok a → Agrees S (j a) (k a)) :
    Agrees S (of x >>= j) (x >>= k) :=
  (agrees_of x).bind fun a b hb hab => by
    subst hab
    exact hk a hb

theorem of_bind (x : Except ParseError α) (k : α → Except ParseError β) :
    of (x >>= k) = of x >>= fun a => of (k a) := by
  cases x <;> rfl

theorem of_map (x : Except ParseError α) (f : α → β) : of (x.map f) = (of x).map f := by
  cases x <;> rfl

theorem of_mapM {f : α → Checked β} {g : α → Except ParseError β} {l : List α}
    (h : ∀ a ∈ l, f a = of (g a)) : l.mapM f = of (l.mapM g) := by
  induction l with
  | nil => rfl
  | cons a l ih =>
    obtain ⟨ha, hl⟩ := List.forall_mem_cons.mp h
    simp only [List.mapM_cons, ha, ih hl, of_bind]
    rfl

end Checked

open Checked

/-! ## Expressions -/

namespace Expr

variable (o : Outline)

/-- Both stacks are the same, with the latest at different ends. -/
theorem agrees_reduceAt (stack : List Expr) (item : Item) : Agrees (fun s s' => s' = s.reverse)
    (reduceAt o stack item) (reduce o stack.reverse item) := by
  cases item with
  | literal value pos => exact .ok (by simp)
  | operator op pos =>
    simp only [reduceAt, reduce]
    rcases stack.reverse with _ | ⟨rhs, _ | ⟨lhs, below⟩⟩
    · exact .refused _
    · exact .refused _
    · exact .ok (by simp)
  | name name pos =>
    simp only [reduceAt, reduce]
    cases o.get? name with
    | none => exact .ok (by simp)
    | some entry =>
      simp only [List.length_reverse]
      by_cases hfew : stack.length < entry.arity
      · rw [if_pos hfew, if_pos hfew]
        exact .refused _
      · have hle : entry.arity ≤ stack.length := by omega
        have hbelow : cut stack 0 (stack.length - entry.arity) =
            .ok (stack.take (stack.length - entry.arity)) := by
          rw [cut_eq (Nat.zero_le _) (by omega), slice, List.drop_zero]
        have hargs : cut stack (stack.length - entry.arity) stack.length =
            .ok (stack.drop (stack.length - entry.arity)) := by
          rw [cut_eq (by omega) (Nat.le_refl _), slice, List.take_length]
        rw [if_neg hfew, if_neg hfew, sub_eq hle]
        simp only [bind, Except.bind, hbelow, hargs]
        refine .ok ?_
        rw [List.take_reverse, List.reverse_reverse, List.drop_reverse, List.reverse_append]
        rfl

theorem build_cons (stack : List Expr) (item : Item) (items : List Item) :
    build o stack (item :: items) = reduce o stack item >>= (build o · items) := by
  rw [build]
  cases reduce o stack item <;> rfl

theorem agrees_build (stack : List Expr) (items : List Item) :
    Agrees (fun s s' => s' = s.reverse) (items.foldlM (reduceAt o) stack)
      (build o stack.reverse items) := by
  induction items generalizing stack with
  | nil => exact .ok rfl
  | cons item items ih =>
    rw [List.foldlM_cons, build_cons]
    refine (agrees_reduceAt o stack item).bind fun s s' _ hs => ?_
    rw [hs]
    exact ih s

/-- The arguments of a call are on the stack, and one expression is left in the end. -/
theorem parseAt_eq (ts : List Token) : parseAt o ts = of (parse o ts) := by
  unfold parseAt parse
  cases postorder o [] ts with
  | error e => rfl
  | ok items =>
    have hbuild := agrees_build o [] items
    rw [List.reverse_nil] at hbuild
    simp only [of_ok, bind, Except.bind]
    generalize items.foldlM (reduceAt o) [] = x at hbuild
    generalize build o [] items = y at hbuild
    cases hbuild with
    | refused e => rfl
    | @ok stack stack' h =>
      subst h
      by_cases hone : stack.length = 1
      · obtain ⟨e, rfl⟩ := List.length_eq_one_iff.mp hone
        rfl
      · simp only [if_neg hone]
        rw [← List.length_reverse] at hone ⊢
        generalize stack.reverse = latest at hone ⊢
        rcases latest with _ | ⟨e, _ | ⟨e', below⟩⟩
        · rfl
        · exact absurd rfl hone
        · rfl

end Expr

/-! ## Statements -/

/-- The current part of the tokens ends where those begin that are left. -/
theorem commaParts_eq {ts current left : List Token} {start : Nat} (depth : Int)
    (hs : start ≤ ts.length) (h : ts.drop start = current ++ left) :
    commaParts ts start (start + current.length) depth left =
      .ok ((splitCommas depth left).modifyHead (current ++ ·)) := by
  induction left generalizing start current depth with
  | nil =>
    have hend : ts.length = start + current.length := by
      have := congrArg List.length h
      rw [List.length_drop, List.append_nil] at this
      omega
    rw [commaParts, hend, cut_of_drop hs h]
    simp [splitCommas, bind, Except.bind, pure, Except.pure]
  | cons t left ih =>
    have hlen := congrArg List.length h
    simp only [List.length_drop, List.length_append, List.length_cons] at hlen
    by_cases hcomma : (t.isSymbol .comma && depth == 0) = true
    · have hkind : t.kind = .symbol .comma := by
        simpa [Token.isSymbol] using (Bool.and_eq_true_iff.mp hcomma).1
      have hbehind : ts.drop (start + current.length + 1) = [] ++ left := by
        rw [Nat.add_assoc, ← List.drop_drop, h, List.drop_length_add_append]
        rfl
      have hrest := ih depth (by omega) hbehind
      change commaParts ts (start + current.length + 1) (start + current.length + 1) depth left =
        .ok ((splitCommas depth left).modifyHead id) at hrest
      have hopen : t.isSymbol .parenOpen = false := by simp [Token.isSymbol, hkind]
      have hclose : t.isSymbol .parenClose = false := by simp [Token.isSymbol, hkind]
      simp [commaParts, hopen, hclose, hcomma, cut_of_drop hs h, hrest, splitCommas, bind,
        Except.bind, pure, Except.pure]
    · rw [Bool.not_eq_true] at hcomma
      have hnext : ts.drop start = (current ++ [t]) ++ left := by
        rw [h, List.append_assoc, List.singleton_append]
      have hrest : ∀ depth', commaParts ts start (start + current.length + 1) depth' left =
          .ok ((splitCommas depth' left).modifyHead ((current ++ ·) ∘ (t :: ·))) := by
        intro depth'
        have := ih depth' hs hnext
        simp only [List.length_append, List.length_singleton, List.append_assoc] at this
        exact this
      rw [commaParts, splitCommas_cons hcomma, List.modifyHead_modifyHead, hcomma]
      simp only [hrest]
      split
      · rfl
      · split <;> rfl

namespace Stmt

variable (o : Outline)

theorem parseValuesAt_eq (ts : List Token) : parseValuesAt o ts = of (parseValues o ts) := by
  cases ts with
  | nil => rfl
  | cons t ts =>
    have hparts := @commaParts_eq (t :: ts) [] (t :: ts) 0 0 (Nat.zero_le _) rfl
    change _ = Except.ok ((splitCommas 0 (t :: ts)).modifyHead id) at hparts
    rw [List.modifyHead_id] at hparts
    rw [parseValuesAt, parseValues, show commaParts (t :: ts) 0 0 0 (t :: ts) = _ from hparts]
    · exact of_mapM fun part _ => Expr.parseAt_eq o part
    · simp
    · simp

theorem parseSimpleAt_eq (ts : List Token) : parseSimpleAt o ts = of (parseSimple o ts) := by
  fun_cases parseSimple o ts with
  | case1 pos values => rw [parseSimpleAt, parseValuesAt_eq, of_map]
  | case2 name pos p value => rw [parseSimpleAt, Expr.parseAt_eq, of_map]
  | case3 ty pos name p q value => rw [parseSimpleAt, Expr.parseAt_eq, of_map]
  | case4 ty pos name p q value => rw [parseSimpleAt, Expr.parseAt_eq, of_map]
  | case5 ts hreturn hassign hequals hnew =>
    rw [parseSimpleAt, Expr.parseAt_eq]
    · exact hreturn
    · exact hassign
    · exact hequals
    · exact hnew

end Stmt

/-- No brace is closed that is not open, as the first one opens the block. -/
theorem blockEnd_eq (depth i : Nat) (ts : List Token) : blockEnd (depth + 1) i ts =
    .ok ((splitBlock depth ts).map fun x => i + x.1.length) := by
  induction ts generalizing depth i with
  | nil => rfl
  | cons t ts ih =>
    have hbehind : ∀ depth', blockEnd (depth' + 1) (i + 1) ts =
        .ok (((splitBlock depth' ts).map fun x => (t :: x.1, x.2)).map
          fun x => i + x.1.length) := by
      intro depth'
      rw [ih, Option.map_map]
      congr 2
      funext x
      simp only [Function.comp_apply, List.length_cons]
      omega
    unfold blockEnd splitBlock
    by_cases hclose : t.isSymbol .braceClose = true
    · have hkind : t.kind = .symbol .braceClose := by simpa [Token.isSymbol] using hclose
      have hopen : t.isSymbol .braceOpen = false := by simp [Token.isSymbol, hkind]
      rw [hopen, hclose, sub_eq (Nat.le_add_left 1 depth)]
      cases depth with
      | zero => rfl
      | succ depth => exact hbehind depth
    · rw [Bool.not_eq_true] at hclose
      rw [hclose]
      by_cases hopen : t.isSymbol .braceOpen = true
      · rw [hopen]
        exact hbehind (depth + 1)
      · rw [Bool.not_eq_true] at hopen
        rw [hopen]
        exact hbehind depth

/-- The statements of a block behind its brace, and the tokens behind the block. -/
def Stmt.readBlock (o : Outline) (brace : Token) (inner : List Token) :
    Except ParseError (List Stmt × List Token) :=
  match splitBlock 0 inner with
  | none => .error ⟨.unclosedBrace, some brace.pos⟩
  | some (block, behind) => do
    let ss ← Stmt.parse o block
    return (ss, behind)

section Equations

variable {o : Outline} {ts : List Token}

theorem Stmt.length_of_readBlock {brace : Token} {inner behind : List Token} {ss : List Stmt}
    (h : Stmt.readBlock o brace inner = .ok (ss, behind)) : behind.length < inner.length := by
  unfold Stmt.readBlock at h
  split at h
  next => cases h
  next block left hsplit =>
    obtain ⟨ss', -, heq⟩ := bind_eq_ok.mp h
    cases heq
    have := splitBlock_length hsplit
    omega

theorem Conditional.read_of_dropWhile {pos : Position} {brace : Token} {inner : List Token}
    (h : ts.dropWhile (!·.opensBlock) = brace :: inner) : Conditional.read o pos ts = (do
      let guard ← Expr.parse o ((ts.takeWhile (!·.opensBlock)).filter (!·.isSymbol .lineBreak))
      let (body, behind) ← Stmt.readBlock o brace inner
      let (other, rest) ← Otherwise.read o behind
      return (⟨guard, body, other, some pos⟩, rest)) := by
  rw [Conditional.read_eq, h]
  unfold Stmt.readBlock
  refine congrArg (Expr.parse o _ >>= ·) (funext fun guard => ?_)
  cases splitBlock 0 inner with
  | none => rfl
  | some split =>
    simp only
    cases Stmt.parse o split.1 <;> rfl

theorem Otherwise.read_block {t next : Token} {rest : List Token}
    (h : ts.dropWhile (·.isSymbol .lineBreak) = t :: next :: rest) (ht : t.isKeyword .else = true)
    (hif : next.isKeyword .if = false) (hnext : next.opensBlock = true) : Otherwise.read o ts = (do
      let (body, left) ← Stmt.readBlock o next rest
      return (.block body, left)) := by
  rw [Otherwise.read_eq, h]
  simp only [ht, hif, hnext, if_true, Bool.false_eq_true, if_false]
  unfold Stmt.readBlock
  cases splitBlock 0 rest with
  | none => rfl
  | some split =>
    simp only
    cases Stmt.parse o split.1 <;> rfl

end Equations

/-- The results are the same, and the tokens that are left over start at the index. -/
def Reaches {α : Type} (ts : List Token) (x : α × Nat) (y : α × List Token) : Prop :=
  x.1 = y.1 ∧ ts.drop x.2 = y.2

theorem Reaches.bind {α γ δ : Type} {ts : List Token} {S : γ → δ → Prop} {x : Checked (α × Nat)}
    {y : Except ParseError (α × List Token)} {j : α × Nat → Checked γ}
    {k : α × List Token → Except ParseError δ} (hx : Agrees (Reaches ts) x y)
    (hk : ∀ a i, y = .ok (a, ts.drop i) → Agrees S (j (a, i)) (k (a, ts.drop i))) :
    Agrees S (x >>= j) (y >>= k) := by
  refine hx.bind fun a b hb hab => ?_
  obtain ⟨a, i⟩ := a
  obtain ⟨b, rest⟩ := b
  obtain ⟨rfl, rfl⟩ := hab
  exact hk _ _ hb

variable (o : Outline)

mutual

-- The readers call each other, always with fewer tokens. Induction on the tokens that are left
-- shows both that each such call is allowed and that it gives the same.

theorem Stmt.parseAt_eq (ts : List Token) (pos : Nat) :
    Stmt.parseAt o ts pos = of (Stmt.parse o (ts.drop pos)) := by
  have hget := getElem?_skip Token.isBreak ts pos
  rw [Stmt.parseAt, Stmt.parse_eq, hget]
  cases hdrop : (ts.drop pos).dropWhile Token.isBreak with
  | nil => rfl
  | cons t rest =>
    obtain ⟨hfirst, hle, hlt⟩ := skip_of_dropWhile hdrop
    obtain ⟨-, rfl⟩ := drop_cons hfirst
    generalize skip Token.isBreak ts pos = first at *
    simp only [List.head?_cons]
    by_cases hif : t.isKeyword .if = true
    · have hfewer : ts.length - (first + 1) < ts.length - pos := by omega
      simp only [hif, if_true]
      rw [fewer_eq hfewer]
      refine (Reaches.bind (Conditional.agrees_parseAt ts (first + 1) t.pos)
        fun c next hread => ?_).eq_of
      have hnext : ts.length - next < ts.length - pos := by
        have := Conditional.length_of_read hread
        simp only [List.length_drop] at this
        omega
      simp only
      rw [fewer_eq hnext, Stmt.parseAt_eq ts next]
      exact .of_bind fun ss _ => .ok rfl
    · rw [Bool.not_eq_true] at hif
      simp only [hif, Bool.false_eq_true, if_false]
      by_cases helse : t.isKeyword .else = true
      · simp only [helse, if_true]
        rfl
      · have hbreak : (!t.isBreak) = true := by rw [head_of_dropWhile hdrop]; rfl
        have hnext := drop_skip (!·.isBreak) ts first
        rw [hfirst, List.dropWhile_cons_of_pos (p := fun t : Token => !t.isBreak) hbreak] at hnext
        have hcut := cut_skip (!·.isBreak) ts first (Nat.le_of_lt hlt)
        rw [hfirst, List.takeWhile_cons_of_pos (p := fun t : Token => !t.isBreak) hbreak] at hcut
        generalize skip (!·.isBreak) ts first = next at hnext hcut ⊢
        have hfewer : ts.length - next < ts.length - pos := by
          have := length_dropWhile_le (!·.isBreak) (ts.drop (first + 1))
          rw [← hnext] at this
          simp only [List.length_drop] at this
          omega
        rw [Bool.not_eq_true] at helse
        simp only [helse, Bool.false_eq_true, if_false, hcut]
        change (Stmt.parseSimpleAt o _ >>= _) = _
        rw [Stmt.parseSimpleAt_eq, ← hnext]
        refine (Agrees.of_bind fun value _ => ?_).eq_of
        rw [fewer_eq hfewer, Stmt.parseAt_eq ts next]
        exact .of_bind fun ss _ => .ok rfl
termination_by ts.length - pos
decreasing_by all_goals omega

theorem Conditional.agrees_parseAt (ts : List Token) (pos : Nat) (place : Position) :
    Agrees (Reaches ts) (Conditional.parseAt o ts pos place)
      (Conditional.read o place (ts.drop pos)) := by
  rw [Conditional.parseAt]
  cases hdrop : (ts.drop pos).dropWhile (!·.opensBlock) with
  | nil =>
    have hend : ts.length ≤ skip (!·.opensBlock) ts pos := by
      rw [← List.drop_eq_nil_iff, drop_skip, hdrop]
    rw [Conditional.read_eq, hdrop]
    simp only [if_pos hend]
    exact .refused _
  | cons brace inner =>
    obtain ⟨hbrace, hle, hlt⟩ := skip_of_dropWhile hdrop
    have hopens : brace.opensBlock = true := by simpa using head_of_dropWhile hdrop
    have hcut := cut_skip (!·.opensBlock) ts pos (by omega)
    have hskip : skip (!·.opensBlock) ts pos =
      pos + ((ts.drop pos).takeWhile (!·.opensBlock)).length := rfl
    rw [Conditional.read_of_dropWhile hdrop]
    obtain ⟨-, rfl⟩ := drop_cons hbrace
    generalize skip (!·.opensBlock) ts pos = start at *
    simp only [hcut, if_neg (Nat.not_le.mpr hlt)]
    change Agrees _ (Expr.parseAt o _ >>= _) _
    rw [Expr.parseAt_eq]
    refine .of_bind fun guard hguard => ?_
    -- A guard of no tokens has been refused.
    have hfewer : ts.length - start < ts.length - pos := by
      have hne : (ts.drop pos).takeWhile (!·.opensBlock) ≠ [] := by
        intro hnil
        rw [hnil] at hguard
        cases hguard
      have := List.length_pos_iff.mpr hne
      omega
    rw [fewer_eq hfewer]
    refine Reaches.bind (Stmt.agrees_blockAt ts start hbrace hopens) fun body behind hblock => ?_
    have hbehind : ts.length - behind < ts.length - pos := by
      have := Stmt.length_of_readBlock hblock
      simp only [List.length_drop] at this
      omega
    simp only
    rw [fewer_eq hbehind]
    exact Reaches.bind (Otherwise.agrees_parseAt ts behind) fun other next _ => .ok ⟨rfl, rfl⟩
termination_by ts.length - pos
decreasing_by all_goals omega

theorem Otherwise.agrees_parseAt (ts : List Token) (pos : Nat) :
    Agrees (Reaches ts) (Otherwise.parseAt o ts pos) (Otherwise.read o (ts.drop pos)) := by
  have hget := getElem?_skip (·.isSymbol .lineBreak) ts pos
  rw [Otherwise.parseAt]
  simp only [hget]
  cases hdrop : (ts.drop pos).dropWhile (·.isSymbol .lineBreak) with
  | nil =>
    rw [Otherwise.read_eq, hdrop]
    exact .ok ⟨rfl, rfl⟩
  | cons t behind =>
    obtain ⟨hpeek, hle, hlt⟩ := skip_of_dropWhile hdrop
    have hbehind := (drop_cons hpeek).2
    generalize skip (·.isSymbol .lineBreak) ts pos = peek at *
    simp only [List.head?_cons]
    by_cases helse : t.isKeyword .else = true
    · have hnext : ts[peek + 1]? = behind.head? := by rw [← hbehind, List.head?_drop]
      simp only [helse, if_true, hnext]
      cases behind with
      | nil =>
        rw [Otherwise.read_eq, hdrop]
        simp only [helse, if_true]
        exact .refused _
      | cons u rest =>
        have hrest : ts.drop (peek + 2) = rest := (drop_cons hbehind).2
        simp only [List.head?_cons]
        by_cases hif : u.isKeyword .if = true
        · have hcond := Conditional.agrees_parseAt ts (peek + 2) u.pos
          rw [hrest] at hcond
          rw [Otherwise.read_eq, hdrop]
          simp only [helse, hif, if_true]
          rw [fewer_eq (by omega)]
          exact Reaches.bind hcond fun c next _ => .ok ⟨rfl, rfl⟩
        · by_cases hopens : u.opensBlock = true
          · rw [Otherwise.read_block hdrop helse (Bool.not_eq_true _ ▸ hif) hopens]
            simp only [if_neg hif, hopens, if_true]
            rw [fewer_eq (by omega)]
            exact Reaches.bind (Stmt.agrees_blockAt ts (peek + 1) hbehind hopens)
              fun body next _ => .ok ⟨rfl, rfl⟩
          · rw [Otherwise.read_eq, hdrop]
            simp only [helse, if_true, if_neg hif, if_neg hopens]
            exact .refused _
    · rw [Otherwise.read_eq, hdrop]
      simp only [if_neg helse]
      exact .ok ⟨rfl, rfl⟩
termination_by ts.length - pos
decreasing_by all_goals omega

theorem Stmt.agrees_blockAt (ts : List Token) (pos : Nat) {brace : Token} {inner : List Token}
    (h : ts.drop pos = brace :: inner) (hbrace : brace.opensBlock = true) :
    Agrees (Reaches ts) (Stmt.blockAt o ts pos) (Stmt.readBlock o brace inner) := by
  obtain ⟨hget, hinner⟩ := drop_cons h
  have hlen : ts.length - pos = inner.length + 1 := by
    rw [← List.length_drop, h]
    rfl
  have hend : blockEnd 0 pos (ts.drop pos) = blockEnd 1 (pos + 1) inner := by
    have hopen : brace.isSymbol .braceOpen = true := hbrace
    rw [h, blockEnd, if_pos hopen]
  rw [Stmt.blockAt, hend, blockEnd_eq, Stmt.readBlock]
  cases hsplit : splitBlock 0 inner with
  | none =>
    rw [hget]
    exact .refused _
  | some split =>
    obtain ⟨block, behind⟩ := split
    obtain ⟨t, hparts⟩ := exists_of_splitBlock hsplit
    have hcut := @cut_of_drop _ ts block (t :: behind) (pos + 1) (by omega) (by rw [hinner, hparts])
    have hblock := splitBlock_length hsplit
    have hbehind : ts.drop (pos + 1 + block.length + 1) = behind := by
      rw [Nat.add_assoc (pos + 1), ← List.drop_drop, hinner, hparts, List.drop_length_add_append]
      rfl
    change Agrees _ (cut ts (pos + 1) (pos + 1 + block.length) >>= _) _
    rw [hcut]
    change Agrees _ (fewer block.length (ts.length - pos) _ >>= _) _
    rw [fewer_eq (by omega), Stmt.parseAt_eq block 0]
    exact .of_bind fun ss _ => .ok ⟨rfl, hbehind⟩
termination_by ts.length - pos
decreasing_by all_goals omega

end

end ProcLang

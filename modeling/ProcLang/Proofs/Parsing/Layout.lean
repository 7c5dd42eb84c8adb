import ProcLang.Proofs.Parsing.Infix
import ProcLang.Proofs.Parsing.Rules
import ProcLang.Proofs.Parsing.Sections

/-!
# The layout of statements

Statements have at least one line feed or semicolon between two of them, and any number of further
ones around them. Line feeds do not count in a guard, nor before an `else`. Every way to lay out a
list of statements is read back: the statements, blocks and values are cut apart where the layout
has put them together.

## Main definitions

* `Stmt.RendersSimple`, `Stmt.Renders`, `Stmt.RendersAll` — the tokens of statements.
* `Conditional.Renders`, `Otherwise.Renders` — the tokens of conditionals.

## Main statements

* `Stmt.RendersAll.parse` — a list of linked statements is read back from each of its layouts.
-/
namespace ProcLang

/-! ## Tokens of expressions -/

/-- The symbols of expressions. -/
def Symbol.inExpr (s : Symbol) : Bool :=
  s == .parenOpen || s == .parenClose || s == .comma || (Operator.ofSymbol? s).isSome

/-- The tokens of expressions. -/
def Token.inExpr (t : Token) : Bool :=
  match t.kind with
  | .literal _ | .ident _ => true
  | .symbol s => s.inExpr
  | _ => false

/-- A token that opens or closes a block. -/
def Token.isBrace (t : Token) : Bool := t.isSymbol .braceOpen || t.isSymbol .braceClose

namespace Token

variable {t : Token}

theorem isSymbol_of_inExpr (h : t.inExpr = true) {s : Symbol} (hs : s.inExpr = false) :
    t.isSymbol s = false := by
  refine beq_false_of_ne fun hk => ?_
  simp [inExpr, hk, hs] at h

theorem not_break_of_inExpr (h : t.inExpr = true) : t.isBreak = false := by
  simp [isBreak, isSymbol_of_inExpr h, show Symbol.inExpr .lineBreak = false from rfl,
    show Symbol.inExpr .semicolon = false from rfl]

theorem not_brace_of_inExpr (h : t.inExpr = true) : t.isBrace = false := by
  simp [isBrace, isSymbol_of_inExpr h, show Symbol.inExpr .braceOpen = false from rfl,
    show Symbol.inExpr .braceClose = false from rfl]

end Token

namespace Expr

mutual

theorem Renders.forall_inExpr {level : Level} {e : Expr} {ts : List Token}
    (h : Renders level e ts) : ∀ t ∈ ts, t.inExpr = true := by
  match h with
  | .literal _ _ | .var _ _ => simp [Token.inExpr]
  | .call _ _ _ ha =>
    have := ha.forall_inExpr
    simpa [or_imp, forall_and, Token.inExpr, Symbol.inExpr] using this
  | .paren _ _ h =>
    have := h.forall_inExpr
    simpa [or_imp, forall_and, Token.inExpr, Symbol.inExpr] using this
  | .binary _ _ hl hr =>
    have h₁ := hl.forall_inExpr
    have h₂ := hr.forall_inExpr
    simpa [or_imp, forall_and, Token.inExpr, Symbol.inExpr] using ⟨h₁, h₂⟩
  | .tighter h => exact h.forall_inExpr

theorem RendersAll.forall_inExpr {es : List Expr} {ts : List Token} (h : RendersAll es ts) :
    ∀ t ∈ ts, t.inExpr = true := by
  match h with
  | .nil => simp
  | .one h => exact h.forall_inExpr
  | .cons _ h hes =>
    have h₁ := h.forall_inExpr
    have h₂ := hes.forall_inExpr
    simpa [or_imp, forall_and, Token.inExpr, Symbol.inExpr] using ⟨h₁, h₂⟩

end

theorem Renders.ne_nil {level : Level} {e : Expr} {ts : List Token} (h : Renders level e ts) :
    ts ≠ [] := by
  match h with
  | .literal _ _ | .var _ _ | .call _ _ _ _ | .paren _ _ _ | .binary _ _ _ _ => simp
  | .tighter h => exact h.ne_nil

theorem RendersAll.ne_nil {e : Expr} {es : List Expr} {ts : List Token}
    (h : RendersAll (e :: es) ts) : ts ≠ [] := by
  cases h with
  | one h => exact h.ne_nil
  | cons => simp

/-- A statement that is spelled like an expression is linked like one. -/
theorem Renders.linked {arity? : String → Option Nat} {level : Level} {e : Expr} {ts : List Token}
    (h : Renders level e ts) (hl : (Stmt.expr e).Linked arity?) : e.Linked arity? := by
  match h with
  | .literal _ _ | .var _ _ | .call _ _ _ _ | .binary _ _ _ _ => simpa [Stmt.Linked] using hl
  | .paren _ _ h => exact h.linked hl
  | .tighter h => exact h.linked hl

end Expr

/-! ## Commas outside of parentheses -/

theorem splitCommas_ne_nil (depth : Int) (ts : List Token) : splitCommas depth ts ≠ [] := by
  cases ts with
  | nil => simp [splitCommas]
  | cons t ts =>
    simp only [splitCommas]
    split
    · simp
    · generalize splitCommas _ ts = parts
      cases parts <;> simp

theorem splitCommas_comma (p : Position) (ts : List Token) :
    splitCommas 0 (⟨.symbol .comma, p⟩ :: ts) = [] :: splitCommas 0 ts := by
  simp [splitCommas, Token.isSymbol]

/-- A token that does not cut goes to the first part. -/
theorem splitCommas_cons {depth : Int} {t : Token}
    (h : (t.isSymbol .comma && depth == 0) = false) (ts : List Token) :
    splitCommas depth (t :: ts) =
      (splitCommas (if t.isSymbol .parenOpen then depth + 1
        else if t.isSymbol .parenClose then depth - 1 else depth) ts).modifyHead (t :: ·) := by
  simp only [splitCommas, h, Bool.false_eq_true, if_false]
  split
  next hs => exact absurd hs (splitCommas_ne_nil _ _)
  next hs => rw [hs, List.modifyHead_cons]

/-- The tokens `ts` are not cut apart, and leave the number of open parentheses as it is. -/
def Whole (depth : Int) (ts : List Token) : Prop :=
  ∀ rest, splitCommas depth (ts ++ rest) = (splitCommas depth rest).modifyHead (ts ++ ·)

namespace Whole

variable {depth : Int} {ts us : List Token}

theorem nil : Whole depth [] := by
  intro rest
  rw [List.nil_append]
  cases splitCommas depth rest <;> rfl

theorem append (h : Whole depth ts) (h' : Whole depth us) : Whole depth (ts ++ us) := by
  intro rest
  rw [List.append_assoc, h, h']
  cases splitCommas depth rest <;> simp

/-- A token that is neither a parenthesis nor a comma between values. -/
theorem one {t : Token} (hc : t.isSymbol .comma = false ∨ depth ≠ 0)
    (ho : t.isSymbol .parenOpen = false) (hp : t.isSymbol .parenClose = false) :
    Whole depth [t] := by
  intro rest
  have hcut : (t.isSymbol .comma && depth == 0) = false := by
    rcases hc with hc | hc <;> simp [hc]
  simpa [ho, hp] using splitCommas_cons hcut rest

/-- Parentheses protect what is between them. -/
theorem paren (h : Whole (depth + 1) ts) (l r : Position) :
    Whole depth (⟨.symbol .parenOpen, l⟩ :: (ts ++ [⟨.symbol .parenClose, r⟩])) := by
  intro rest
  have hclose : splitCommas (depth + 1) (⟨.symbol .parenClose, r⟩ :: rest) =
      (splitCommas depth rest).modifyHead (⟨.symbol .parenClose, r⟩ :: ·) := by
    rw [splitCommas_cons rfl]
    simp [Token.isSymbol]
  rw [List.cons_append, splitCommas_cons rfl, List.append_assoc]
  simp only [Token.isSymbol, beq_self_eq_true, if_true]
  rw [h, List.singleton_append, hclose]
  cases splitCommas depth rest <;> simp

end Whole

namespace Expr

mutual

theorem Renders.whole {level : Level} {e : Expr} {ts : List Token} (h : Renders level e ts)
    {depth : Int} (hd : 0 ≤ depth) : Whole depth ts := by
  match h with
  | .literal _ _ | .var _ _ => exact .one (.inl rfl) rfl rfl
  | .call p l r ha =>
    exact (Whole.one (.inl rfl) rfl rfl).append ((ha.whole (by omega)).paren l r)
  | .paren l r h => exact (h.whole (by omega)).paren l r
  | @Renders.binary _ op _ _ us ws p _ hl hr =>
    have hop : Whole depth [⟨.symbol op.symbol, p⟩] := by
      cases op <;> exact .one (.inl rfl) rfl rfl
    exact (hl.whole hd).append (hop.append (hr.whole hd))
  | .tighter h => exact h.whole hd

theorem RendersAll.whole {es : List Expr} {ts : List Token} (h : RendersAll es ts) {depth : Int}
    (hd : 0 < depth) : Whole depth ts := by
  match h with
  | .nil => exact .nil
  | .one h => exact h.whole (by omega)
  | .cons p h hes =>
    have hcomma : Whole depth [⟨.symbol .comma, p⟩] := .one (.inr (by omega)) rfl rfl
    exact (h.whole (by omega)).append (hcomma.append (hes.whole hd))

end

/-- Values with commas between them are read one by one. -/
theorem RendersAll.mapM_parse {e : Expr} {es : List Expr} {ts : List Token}
    (h : RendersAll (e :: es) ts) {o : Outline} (hl : AllLinked o.arity? (e :: es)) :
    (splitCommas 0 ts).mapM (Expr.parse o) = .ok (e :: es) := by
  rw [mapM_eq_ok]
  induction es generalizing e ts with
  | nil =>
    cases h with
    | one h =>
      have hw := h.whole (Int.le_refl 0) []
      simp only [List.append_nil, splitCommas, List.modifyHead_cons] at hw
      rw [hw]
      exact .cons (h.parse hl.1) .nil
  | cons e' es ih =>
    cases h with
    | cons p h hes =>
      rw [h.whole (Int.le_refl 0), splitCommas_comma, List.modifyHead_cons, List.append_nil]
      exact .cons (h.parse hl.1) (ih hes hl.2)

end Expr

namespace Stmt

/-! ## Statements without blocks -/

/-- The tokens of a statement without blocks. -/
inductive RendersSimple : Expr → List Token → Prop where
  | value {e : Expr} {ts : List Token} (h : e.Renders .comparison ts) : RendersSimple e ts
  | assign {e : Expr} {ts : List Token} (name : String) (p q : Position)
      (h : e.Renders .comparison ts) : RendersSimple (.assign name none e (some p))
        (⟨.ident name, p⟩ :: ⟨.symbol .assign, q⟩ :: ts)
  | declare {e : Expr} {ts : List Token} (ty : Ty) (name : String) (p q r : Position)
      {mark : Symbol} (hm : mark = .equals ∨ mark = .assign) (h : e.Renders .comparison ts) :
      RendersSimple (.assign name (some ty) e (some p))
        (⟨.type ty, p⟩ :: ⟨.ident name, q⟩ :: ⟨.symbol mark, r⟩ :: ts)
  | return {es : List Expr} {ts : List Token} (p : Position) (h : Expr.RendersAll es ts) :
      RendersSimple (.return es (some p)) (⟨.keyword .return, p⟩ :: ts)

namespace RendersSimple

variable {e : Expr} {ts : List Token}

theorem parse (h : RendersSimple e ts) {o : Outline} (hl : (Stmt.expr e).Linked o.arity?) :
    parseSimple o ts = .ok e := by
  cases h with
  | value h =>
    have hp := h.parse (h.linked hl)
    have hin := h.forall_inExpr
    -- No statement but an expression starts with tokens of expressions.
    unfold parseSimple
    split
    · simp [Token.inExpr] at hin
    · simp [Token.inExpr, Symbol.inExpr, Operator.ofSymbol?] at hin
    · simp [Token.inExpr] at hin
    · simp [Token.inExpr] at hin
    · exact hp
  | assign name p q h =>
    simp only [parseSimple, h.parse (by simpa [Linked] using hl)]
    rfl
  | declare ty name p q r hm h =>
    have hp := h.parse (by simpa [Linked] using hl)
    rcases hm with rfl | rfl <;> simp only [parseSimple, hp] <;> rfl
  | @«return» es us p h =>
    have hvalues : parseValues o us = .ok es := by
      cases es with
      | nil =>
        cases h
        rfl
      | cons e es =>
        have hm := h.mapM_parse (by simpa [Linked] using hl)
        unfold parseValues
        split
        · exact absurd rfl h.ne_nil
        · exact hm
    simp only [parseSimple, hvalues]
    rfl

/-- Nothing in a statement without blocks ends it or belongs to a block. -/
theorem forall_mem (h : RendersSimple e ts) :
    ∀ t ∈ ts, t.isBreak = false ∧ t.isBrace = false := by
  have hin : ∀ {ts : List Token}, (∀ t ∈ ts, t.inExpr = true) →
      ∀ t ∈ ts, t.isBreak = false ∧ t.isBrace = false := fun h t ht =>
    ⟨Token.not_break_of_inExpr (h t ht), Token.not_brace_of_inExpr (h t ht)⟩
  cases h with
  | value h => exact hin h.forall_inExpr
  | assign name p q h =>
    have := hin h.forall_inExpr
    simpa [Token.isBreak, Token.isBrace, Token.isSymbol] using this
  | declare ty name p q r hm h =>
    have := hin h.forall_inExpr
    rcases hm with rfl | rfl <;> simpa [Token.isBreak, Token.isBrace, Token.isSymbol] using this
  | «return» p h =>
    have := hin h.forall_inExpr
    simpa [Token.isBreak, Token.isBrace, Token.isSymbol] using this

/-- A statement without blocks does not start like a conditional. -/
theorem exists_cons (h : RendersSimple e ts) : ∃ t us, ts = t :: us ∧
    t.isKeyword .if = false ∧ t.isKeyword .else = false := by
  cases h with
  | value h =>
    obtain ⟨t, us, rfl⟩ := List.exists_cons_of_ne_nil h.ne_nil
    have hin : t.inExpr = true := h.forall_inExpr t (by simp)
    refine ⟨t, us, rfl, beq_false_of_ne fun hk => ?_, beq_false_of_ne fun hk => ?_⟩ <;>
      simp [Token.inExpr, hk] at hin
  | assign | declare | «return» => exact ⟨_, _, rfl, rfl, rfl⟩

end RendersSimple
end Stmt

/-! ## Statements with blocks -/

mutual

/-- The tokens of a statement. -/
inductive Stmt.Renders : Stmt → List Token → Prop where
  | simple {e : Expr} {ts : List Token} (h : Stmt.RendersSimple e ts) : Stmt.Renders (.expr e) ts
  | branch {c : Conditional} {ts : List Token} (p : Position) (h : Conditional.Renders p c ts) :
      Stmt.Renders (.branch c) (⟨.keyword .if, p⟩ :: ts)

/-- The tokens of a list of statements: what follows a statement starts with a break. -/
inductive Stmt.RendersAll : List Stmt → List Token → Prop where
  | nil {gap : List Token} (hg : ∀ t ∈ gap, t.isBreak = true) : Stmt.RendersAll [] gap
  | cons {s : Stmt} {ss : List Stmt} {gap ts us : List Token} (hg : ∀ t ∈ gap, t.isBreak = true)
      (h : Stmt.Renders s ts) (hus : ∀ t ∈ us.head?, t.isBreak = true)
      (hss : Stmt.RendersAll ss us) : Stmt.RendersAll (s :: ss) (gap ++ (ts ++ us))

/-- The tokens of a conditional behind its `if`, which stands at `p`. -/
inductive Conditional.Renders : Position → Conditional → List Token → Prop where
  | mk {guard : Expr} {body : List Stmt} {other : Otherwise} {gs ts us : List Token}
      (p l r : Position) (hg : guard.Renders .comparison (gs.filter (!·.isSymbol .lineBreak)))
      (hb : Stmt.RendersAll body ts) (ho : Otherwise.Renders other us) :
      Conditional.Renders p ⟨guard, body, other, some p⟩
        (gs ++ ⟨.symbol .braceOpen, l⟩ :: (ts ++ ⟨.symbol .braceClose, r⟩ :: us))

/-- The tokens behind the block of a conditional. -/
inductive Otherwise.Renders : Otherwise → List Token → Prop where
  | nothing : Otherwise.Renders .nothing []
  | block {gap ts : List Token} {body : List Stmt}
      (hg : ∀ t ∈ gap, t.isSymbol .lineBreak = true) (p l r : Position)
      (h : Stmt.RendersAll body ts) : Otherwise.Renders (.block body)
        (gap ++ ⟨.keyword .else, p⟩ :: ⟨.symbol .braceOpen, l⟩ ::
          (ts ++ [⟨.symbol .braceClose, r⟩]))
  | chain {gap ts : List Token} {c : Conditional} (hg : ∀ t ∈ gap, t.isSymbol .lineBreak = true)
      (p q : Position) (h : Conditional.Renders q c ts) : Otherwise.Renders (.chain c)
        (gap ++ ⟨.keyword .else, p⟩ :: ⟨.keyword .if, q⟩ :: ts)

end

/-! ## Braces of statements -/

/-- Tokens whose braces match each other. -/
def Balanced (ts : List Token) : Prop := ∀ depth, braceDepth depth ts = some depth

namespace Balanced

variable {ts us : List Token}

theorem append (h : Balanced ts) (h' : Balanced us) : Balanced (ts ++ us) := by
  intro depth
  rw [braceDepth_append, h, Option.bind_some, h']

theorem of_forall (h : ∀ t ∈ ts, t.isBrace = false) : Balanced ts := by
  intro depth
  induction ts with
  | nil => rfl
  | cons t ts ih =>
    obtain ⟨ht, hts⟩ := List.forall_mem_cons.mp h
    obtain ⟨hopen, hclose⟩ := Bool.or_eq_false_iff.mp ht
    simpa [braceDepth, hopen, hclose] using ih hts

theorem block (h : Balanced ts) (l r : Position) :
    Balanced (⟨.symbol .braceOpen, l⟩ :: (ts ++ [⟨.symbol .braceClose, r⟩])) := by
  intro depth
  have hopen : ∀ us, braceDepth depth (⟨.symbol .braceOpen, l⟩ :: us) =
      braceDepth (depth + 1) us := fun _ => rfl
  rw [hopen, braceDepth_append, h]
  rfl

end Balanced

theorem Token.not_brace_of_break {t : Token} (h : t.isBreak = true) : t.isBrace = false := by
  obtain ⟨kind, p⟩ := t
  simp only [isBreak, isSymbol, Bool.or_eq_true, beq_iff_eq] at h
  rcases h with rfl | rfl <;> rfl

theorem Token.not_brace_of_lineBreak {t : Token} (h : t.isSymbol .lineBreak = true) :
    t.isBrace = false :=
  not_brace_of_break (by simp [isBreak, h])

/-- A guard has no braces, with or without its line feeds. -/
theorem Expr.Renders.not_brace {e : Expr} {gs : List Token}
    (h : e.Renders .comparison (gs.filter (!·.isSymbol .lineBreak))) :
    ∀ t ∈ gs, t.isBrace = false := by
  intro t ht
  cases hl : t.isSymbol .lineBreak with
  | true => exact Token.not_brace_of_lineBreak hl
  | false =>
    have hmem : t ∈ gs.filter (!·.isSymbol .lineBreak) := List.mem_filter.mpr ⟨ht, by simp [hl]⟩
    exact Token.not_brace_of_inExpr (h.forall_inExpr t hmem)

mutual

theorem Stmt.Renders.balanced {s : Stmt} {ts : List Token} (h : Stmt.Renders s ts) :
    Balanced ts := by
  match h with
  | .simple h => exact .of_forall fun t ht => (h.forall_mem t ht).2
  | .branch p h =>
    have hif : Balanced [⟨.keyword .if, p⟩] := .of_forall (by simp [Token.isBrace, Token.isSymbol])
    exact hif.append h.balanced

theorem Stmt.RendersAll.balanced {ss : List Stmt} {ts : List Token}
    (h : Stmt.RendersAll ss ts) : Balanced ts := by
  match h with
  | .nil hg => exact .of_forall fun t ht => Token.not_brace_of_break (hg t ht)
  | .cons hg h _ hss =>
    have hgap := Balanced.of_forall fun t ht => Token.not_brace_of_break (hg t ht)
    exact hgap.append (h.balanced.append hss.balanced)

theorem Conditional.Renders.balanced {p : Position} {c : Conditional} {ts : List Token}
    (h : Conditional.Renders p c ts) : Balanced ts := by
  match h with
  | .mk _ l r hg hb ho =>
    have hblock := (hb.balanced.block l r).append ho.balanced
    simpa using (Balanced.of_forall hg.not_brace).append hblock

theorem Otherwise.Renders.balanced {other : Otherwise} {ts : List Token}
    (h : Otherwise.Renders other ts) : Balanced ts := by
  match h with
  | .nothing => exact .of_forall (by simp)
  | .block hg p l r h =>
    have hgap := Balanced.of_forall fun t ht => Token.not_brace_of_lineBreak (hg t ht)
    have helse : Balanced [⟨.keyword .else, p⟩] :=
      .of_forall (by simp [Token.isBrace, Token.isSymbol])
    exact hgap.append (helse.append (h.balanced.block l r))
  | .chain hg p q h =>
    have hgap := Balanced.of_forall fun t ht => Token.not_brace_of_lineBreak (hg t ht)
    have hwords : Balanced [⟨.keyword .else, p⟩, ⟨.keyword .if, q⟩] :=
      .of_forall (by simp [Token.isBrace, Token.isSymbol])
    exact hgap.append (hwords.append h.balanced)

end

/-! ## What follows a conditional -/

theorem NoElse.cons {t : Token} (h : t.isKeyword .else = false) (ts : List Token)
    (hts : t.isSymbol .lineBreak = true → NoElse ts) : NoElse (t :: ts) := by
  cases hl : t.isSymbol .lineBreak with
  | true => simpa [NoElse, hl] using hts hl
  | false => simpa [NoElse, hl] using h

theorem NoElse.append_gap {gap ts : List Token} (hg : ∀ t ∈ gap, t.isBreak = true)
    (h : NoElse ts) : NoElse (gap ++ ts) := by
  induction gap with
  | nil => exact h
  | cons t gap ih =>
    obtain ⟨ht, hgap⟩ := List.forall_mem_cons.mp hg
    have helse : t.isKeyword .else = false := by
      refine beq_false_of_ne fun hk => ?_
      simp [Token.isBreak, Token.isSymbol, hk] at ht
    exact .cons helse _ fun _ => ih hgap

theorem Stmt.Renders.noElse {s : Stmt} {ts : List Token} (h : Stmt.Renders s ts)
    (us : List Token) : NoElse (ts ++ us) := by
  cases h with
  | simple h =>
    obtain ⟨t, ts, rfl, -, helse⟩ := h.exists_cons
    have hbreak := (h.forall_mem t (by simp)).1
    refine .cons helse _ fun hl => ?_
    simp [Token.isBreak, hl] at hbreak
  | branch p h => exact .cons rfl _ fun hl => by simp [Token.isSymbol] at hl

theorem Stmt.RendersAll.noElse {ss : List Stmt} {ts : List Token} (h : Stmt.RendersAll ss ts) :
    NoElse ts := by
  cases h with
  | nil hg => simpa using NoElse.append_gap hg (show NoElse [] by simp [NoElse])
  | cons hg h _ _ => exact .append_gap hg (h.noElse _)

/-! ## Reading -/

section Reading

variable {o : Outline}

/-- The block in front of the brace that closes it is split off. -/
theorem Stmt.RendersAll.splitBlock {ss : List Stmt} {ts : List Token} (h : Stmt.RendersAll ss ts)
    (r : Position) (rest : List Token) :
    splitBlock 0 (ts ++ ⟨.symbol .braceClose, r⟩ :: rest) = some (ts, rest) :=
  splitBlock_of_braceDepth (h.balanced 0) rfl rest

mutual

theorem Stmt.RendersAll.reads {ss : List Stmt} {ts : List Token} (h : Stmt.RendersAll ss ts)
    (hl : Stmt.AllLinked o.arity? ss) : Stmt.Reads o ts ss := by
  match h with
  | .nil hg => exact .nil hg
  | .cons hg (.simple h) hus hss =>
    have he := h.parse hl.1
    have hplain := fun u hu => (h.forall_mem u hu).1
    obtain ⟨t, ts, rfl, hif, helse⟩ := h.exists_cons
    exact .simple hg hif helse hplain hus he (hss.reads hl.2)
  | .cons hg (.branch p h) hus hss =>
    exact .branch p hg (h.reads (by simpa [Stmt.Linked] using hl.1) hss.noElse) (hss.reads hl.2)

theorem Conditional.Renders.reads {p : Position} {c : Conditional} {ts rest : List Token}
    (h : Conditional.Renders p c ts) (hl : c.Linked o.arity?) (hrest : NoElse rest) :
    Conditional.Reads o p (ts ++ rest) c rest := by
  match h with
  | @Conditional.Renders.mk guard body other gs bs us p l r hg hb ho =>
    obtain ⟨hlg, hlb, hlo⟩ : guard.Linked o.arity? ∧ Stmt.AllLinked o.arity? body ∧
      other.Linked o.arity? := by simpa [Conditional.Linked] using hl
    have hopen : ∀ t ∈ gs, t.opensBlock = false := fun t ht =>
      (Bool.or_eq_false_iff.mp (hg.not_brace t ht)).1
    simpa using Conditional.Reads.mk p l hopen (hg.parse hlg) (hb.splitBlock r (us ++ rest))
      (hb.reads hlb) (ho.reads hlo hrest)

theorem Otherwise.Renders.reads {other : Otherwise} {ts rest : List Token}
    (h : Otherwise.Renders other ts) (hl : other.Linked o.arity?) (hrest : NoElse rest) :
    Otherwise.Reads o (ts ++ rest) other rest := by
  match h with
  | .nothing => exact .nothing hrest
  | .block hg p l r h =>
    have hbody := h.reads (by simpa [Otherwise.Linked] using hl)
    simpa using Otherwise.Reads.block hg p l (h.splitBlock r rest) hbody
  | .chain hg p q h =>
    have hc := h.reads (by simpa [Otherwise.Linked] using hl) hrest
    simpa using Otherwise.Reads.chain hg p q hc

end

/-- A list of linked statements is read back from each of its layouts. -/
theorem Stmt.RendersAll.parse {ss : List Stmt} {ts : List Token} (h : Stmt.RendersAll ss ts)
    (hl : Stmt.AllLinked o.arity? ss) : Stmt.parse o ts = .ok ss :=
  Stmt.parse_eq_ok.mpr (h.reads hl)

end Reading

end ProcLang

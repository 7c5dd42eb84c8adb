import ProcLang.Proofs.Parsing.Blocks
import ProcLang.Proofs.Parsing.Header

/-!
# Rules for reading statements

The ways in which the readers of statements succeed, as rules: how the tokens are put together, and
what is read from each of their parts. Nothing is read but by these rules, so that what the rules
keep up holds of everything that is read. The induction on the number of tokens is made here, once
for all such properties.

## Main definitions

* `Stmt.Reads`, `Conditional.Reads`, `Otherwise.Reads` — the rules.

## Main statements

* `Stmt.parse_eq_ok` — statements are read from tokens exactly if the rules say so.
-/
namespace ProcLang

/-- Tokens that do not go on with an `else`, whatever line feeds there are. -/
def NoElse (ts : List Token) : Prop :=
  ∀ t ∈ (ts.dropWhile (·.isSymbol .lineBreak)).head?, t.isKeyword .else = false

variable {o : Outline}

/-! ## The rules -/

mutual

/-- The statements that are read from tokens. -/
inductive Stmt.Reads (o : Outline) : List Token → List Stmt → Prop where
  | nil {gap : List Token} (hg : ∀ t ∈ gap, t.isBreak = true) : Stmt.Reads o gap []
  | simple {gap ts us : List Token} {t : Token} {e : Expr} {ss : List Stmt}
      (hg : ∀ t ∈ gap, t.isBreak = true) (hif : t.isKeyword .if = false)
      (helse : t.isKeyword .else = false) (hts : ∀ u ∈ t :: ts, u.isBreak = false)
      (hus : ∀ u ∈ us.head?, u.isBreak = true) (he : Stmt.parseSimple o (t :: ts) = .ok e)
      (hss : Stmt.Reads o us ss) : Stmt.Reads o (gap ++ t :: (ts ++ us)) (.expr e :: ss)
  | branch {gap ts us : List Token} {c : Conditional} {ss : List Stmt} (p : Position)
      (hg : ∀ t ∈ gap, t.isBreak = true) (hc : Conditional.Reads o p ts c us)
      (hss : Stmt.Reads o us ss) :
      Stmt.Reads o (gap ++ ⟨.keyword .if, p⟩ :: ts) (.branch c :: ss)

/-- The conditional that is read from the tokens behind its `if`, and the tokens behind it. -/
inductive Conditional.Reads (o : Outline) :
    Position → List Token → Conditional → List Token → Prop where
  | mk {gs ts inner behind rest : List Token} {guard : Expr} {body : List Stmt} {other : Otherwise}
      (p l : Position) (hgs : ∀ t ∈ gs, t.opensBlock = false)
      (hg : Expr.parse o (gs.filter (!·.isSymbol .lineBreak)) = .ok guard)
      (hs : splitBlock 0 ts = some (inner, behind)) (hb : Stmt.Reads o inner body)
      (ho : Otherwise.Reads o behind other rest) :
      Conditional.Reads o p (gs ++ ⟨.symbol .braceOpen, l⟩ :: ts)
        ⟨guard, body, other, some p⟩ rest

/-- What is read from the tokens behind a block of a conditional, and the tokens behind that. -/
inductive Otherwise.Reads (o : Outline) : List Token → Otherwise → List Token → Prop where
  | nothing {ts : List Token} (h : NoElse ts) : Otherwise.Reads o ts .nothing ts
  | block {gap ts inner rest : List Token} {body : List Stmt}
      (hg : ∀ t ∈ gap, t.isSymbol .lineBreak = true) (p l : Position)
      (hs : splitBlock 0 ts = some (inner, rest)) (hb : Stmt.Reads o inner body) :
      Otherwise.Reads o (gap ++ ⟨.keyword .else, p⟩ :: ⟨.symbol .braceOpen, l⟩ :: ts)
        (.block body) rest
  | chain {gap ts rest : List Token} {c : Conditional}
      (hg : ∀ t ∈ gap, t.isSymbol .lineBreak = true) (p q : Position)
      (hc : Conditional.Reads o q ts c rest) :
      Otherwise.Reads o (gap ++ ⟨.keyword .else, p⟩ :: ⟨.keyword .if, q⟩ :: ts) (.chain c) rest

end

/-! ## What is read follows the rules -/

theorem Token.eq_of_isKeyword {t : Token} {k : Keyword} (h : t.isKeyword k = true) :
    t = ⟨.keyword k, t.pos⟩ := by
  obtain ⟨kind, pos⟩ := t
  simp only [isKeyword, beq_iff_eq] at h
  rw [h]

theorem Token.eq_of_opensBlock {t : Token} (h : t.opensBlock = true) :
    t = ⟨.symbol .braceOpen, t.pos⟩ := by
  obtain ⟨kind, pos⟩ := t
  simp only [opensBlock, isSymbol, beq_iff_eq] at h
  rw [h]

theorem Conditional.length_of_read {pos : Position} {ts rest : List Token} {c : Conditional}
    (h : Conditional.read o pos ts = .ok (c, rest)) : rest.length < ts.length := by
  obtain ⟨r, -, hr⟩ := map_eq_ok.mp h
  cases hr
  exact r.2.2

mutual

theorem Stmt.reads_of_parse (ts : List Token) {ss : List Stmt} (h : Stmt.parse o ts = .ok ss) :
    Stmt.Reads o ts ss := by
  have hgap := forall_mem_takeWhile Token.isBreak ts
  rw [Stmt.parse_eq] at h
  split at h
  next hdrop =>
    cases h
    rw [eq_append_of_dropWhile hdrop, List.append_nil]
    exact .nil hgap
  next t rest hdrop =>
    have hlt := length_lt_of_dropWhile hdrop
    rw [eq_append_of_dropWhile hdrop]
    split at h
    next hif =>
      obtain ⟨⟨c, left⟩, hc, h⟩ := bind_eq_ok.mp h
      obtain ⟨ss', hss, h⟩ := bind_eq_ok.mp h
      cases h
      have hleft := Conditional.length_of_read hc
      rw [Token.eq_of_isKeyword hif]
      exact .branch t.pos hgap (Conditional.reads_of_read t.pos rest hc)
        (Stmt.reads_of_parse left hss)
    next hif =>
      split at h
      next => cases h
      next helse =>
        obtain ⟨e, he, h⟩ := bind_eq_ok.mp h
        obtain ⟨ss', hss, h⟩ := bind_eq_ok.mp h
        cases h
        have hlen := length_dropWhile_le (fun t : Token => !t.isBreak) rest
        have hline := forall_mem_takeWhile (fun t : Token => !t.isBreak) rest
        rw [eq_append_of_dropWhile (p := fun t : Token => !t.isBreak) (l := rest) rfl]
        refine .simple hgap (by simpa using hif) (by simpa using helse) ?_ ?_ he
          (Stmt.reads_of_parse _ hss)
        · exact List.forall_mem_cons.mpr ⟨head_of_dropWhile hdrop, by simpa using hline⟩
        · intro u hu
          obtain ⟨left, hleft⟩ := List.head?_eq_some_iff.mp hu
          simpa using head_of_dropWhile hleft
termination_by ts.length

theorem Conditional.reads_of_read (pos : Position) (ts : List Token) {rest : List Token}
    {c : Conditional} (h : Conditional.read o pos ts = .ok (c, rest)) :
    Conditional.Reads o pos ts c rest := by
  have hguard := forall_mem_takeWhile (fun t : Token => !t.opensBlock) ts
  rw [Conditional.read_eq] at h
  split at h
  next => cases h
  next brace inner hdrop =>
    have hlt := length_lt_of_dropWhile hdrop
    have hopen : brace.opensBlock = true := by simpa using head_of_dropWhile hdrop
    obtain ⟨guard, hg, h⟩ := bind_eq_ok.mp h
    split at h
    next => cases h
    next block behind hsplit =>
      have hlen := splitBlock_length hsplit
      obtain ⟨body, hb, h⟩ := bind_eq_ok.mp h
      obtain ⟨⟨other, left⟩, ho, h⟩ := bind_eq_ok.mp h
      cases h
      rw [eq_append_of_dropWhile hdrop, Token.eq_of_opensBlock hopen]
      exact .mk pos brace.pos (by simpa using hguard) hg hsplit (Stmt.reads_of_parse block hb)
        (Otherwise.reads_of_read behind ho)
termination_by ts.length

theorem Otherwise.reads_of_read (ts : List Token) {rest : List Token} {other : Otherwise}
    (h : Otherwise.read o ts = .ok (other, rest)) : Otherwise.Reads o ts other rest := by
  have hgap := forall_mem_takeWhile (fun t : Token => t.isSymbol .lineBreak) ts
  rw [Otherwise.read_eq] at h
  split at h
  next hdrop =>
    cases h
    exact .nothing (by simp [NoElse, hdrop])
  next t behind hdrop =>
    have hlt := length_lt_of_dropWhile hdrop
    split at h
    next helse =>
      split at h
      next => cases h
      next next left =>
        have hleft : left.length < ts.length := by
          rw [List.length_cons] at hlt
          omega
        rw [Token.eq_of_isKeyword helse] at hdrop
        split at h
        next hif =>
          obtain ⟨⟨c, left'⟩, hc, h⟩ := bind_eq_ok.mp h
          cases h
          rw [eq_append_of_dropWhile hdrop, Token.eq_of_isKeyword hif]
          exact .chain hgap t.pos next.pos (Conditional.reads_of_read next.pos left hc)
        next =>
          split at h
          next hopen =>
            split at h
            next => cases h
            next inner left' hsplit =>
              have hlen := splitBlock_length hsplit
              have hinner : inner.length < ts.length := by omega
              obtain ⟨body, hb, h⟩ := bind_eq_ok.mp h
              cases h
              rw [eq_append_of_dropWhile hdrop, Token.eq_of_opensBlock hopen]
              exact .block hgap t.pos next.pos hsplit (Stmt.reads_of_parse inner hb)
          next => cases h
    next helse =>
      cases h
      exact .nothing (by simpa [NoElse, hdrop] using helse)
termination_by ts.length

end

/-! ## What follows the rules is read -/

mutual

theorem Stmt.Reads.parse {ts : List Token} {ss : List Stmt} (h : Stmt.Reads o ts ss) :
    Stmt.parse o ts = .ok ss := by
  match h with
  | .nil hg =>
    have hgap := (takeWhile_dropWhile_append hg [] (by simp)).2
    rw [List.append_nil] at hgap
    rw [Stmt.parse_eq, hgap]
  | @Stmt.Reads.simple _ gap ts us t e ss hg hif helse hts hus he hss =>
    obtain ⟨ht, hts⟩ := List.forall_mem_cons.mp hts
    have hgap := (takeWhile_dropWhile_append hg (t :: (ts ++ us)) (by simpa using ht)).2
    obtain ⟨htake, hdrop⟩ := takeWhile_dropWhile_append (q := (!·.isBreak))
      (by simpa using hts) us (by simpa using hus)
    rw [Stmt.parse_eq, hgap]
    simp only [hif, helse, htake, hdrop, he, hss.parse, Bool.false_eq_true, if_false]
    rfl
  | @Stmt.Reads.branch _ gap ts us c ss p hg hc hss =>
    have hgap := (takeWhile_dropWhile_append hg (⟨.keyword .if, p⟩ :: ts)
      (by simp [Token.isBreak, Token.isSymbol])).2
    rw [Stmt.parse_eq, hgap]
    simp only [Token.isKeyword, beq_self_eq_true, if_true]
    exact bind_eq_ok.mpr ⟨(c, us), hc.read, bind_eq_ok.mpr ⟨ss, hss.parse, rfl⟩⟩

theorem Conditional.Reads.read {p : Position} {ts rest : List Token} {c : Conditional}
    (h : Conditional.Reads o p ts c rest) : Conditional.read o p ts = .ok (c, rest) := by
  match h with
  | @Conditional.Reads.mk _ gs ts inner behind rest guard body other p l hgs hg hs hb ho =>
    obtain ⟨htake, hdrop⟩ := takeWhile_dropWhile_append (q := (!·.opensBlock))
      (by simpa using hgs) (⟨.symbol .braceOpen, l⟩ :: ts)
      (by simp [Token.opensBlock, Token.isSymbol])
    simp only [Conditional.read_eq, htake, hdrop, hg, hs, hb.parse, ho.read]
    rfl

theorem Otherwise.Reads.read {ts rest : List Token} {other : Otherwise}
    (h : Otherwise.Reads o ts other rest) : Otherwise.read o ts = .ok (other, rest) := by
  match h with
  | .nothing h =>
    rw [Otherwise.read_eq]
    cases hdrop : ts.dropWhile (·.isSymbol .lineBreak) with
    | nil => rfl
    | cons t behind =>
      have helse : t.isKeyword .else = false := h t (by simp [hdrop])
      simp [helse]
  | @Otherwise.Reads.block _ gap ts inner rest body hg p l hs hb =>
    have hgap := (takeWhile_dropWhile_append hg
      (⟨.keyword .else, p⟩ :: ⟨.symbol .braceOpen, l⟩ :: ts) (by simp [Token.isSymbol])).2
    simp only [Otherwise.read_eq, hgap, hs, hb.parse]
    rfl
  | @Otherwise.Reads.chain _ gap ts rest c hg p q hc =>
    have hgap := (takeWhile_dropWhile_append hg
      (⟨.keyword .else, p⟩ :: ⟨.keyword .if, q⟩ :: ts) (by simp [Token.isSymbol])).2
    simp only [Otherwise.read_eq, hgap, hc.read]
    rfl

end

/-- Statements are read from tokens exactly if the rules say so. -/
theorem Stmt.parse_eq_ok {ts : List Token} {ss : List Stmt} :
    Stmt.parse o ts = .ok ss ↔ Stmt.Reads o ts ss :=
  ⟨Stmt.reads_of_parse ts, Stmt.Reads.parse⟩

end ProcLang

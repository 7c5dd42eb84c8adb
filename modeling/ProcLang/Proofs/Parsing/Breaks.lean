import ProcLang.Proofs.Parsing.Conservation

/-!
# Line feeds and semicolons

Statements end at line feeds and semicolons alike. Elsewhere the two are not the same: a guard may
have line feeds and a line feed may stand before an `else`, where a semicolon may not. But then
statements that can be read have no semicolon there, so that a line feed will do in place of every
semicolon, and where there is one break there may be more line feeds.

## Main definitions

* `relay` — tokens with line feeds in place of some semicolons, and further line feeds behind some
  breaks.
* `Relaid` — the same as a relation, under which each part of the tokens is laid out by itself.

## Main statements

* `Stmt.parse_relay` — statements are read back from tokens that have been laid out anew.
-/
namespace ProcLang

/-- A line feed at `p`. -/
def Token.feedAt (p : Position) : Token := ⟨.symbol .lineBreak, p⟩

/-- The tokens with breaks laid out anew: the break of index `i` becomes a line feed at the position
`soft i`, if there is one, and line feeds at the positions `feeds i` follow it. All other tokens
stay as they are. -/
def relay (soft : Nat → Option Position) (feeds : Nat → List Position) (ts : List Token) :
    List Token :=
  (ts.mapIdx fun i t =>
    if t.isBreak then (soft i).elim t .feedAt :: (feeds i).map .feedAt else [t]).flatten

/-- The tokens `us` are `ts` with line feeds in place of some breaks, and with further line feeds
behind some breaks. -/
inductive Relaid : List Token → List Token → Prop where
  | nil : Relaid [] []
  | token {t : Token} {ts us : List Token} (ht : t.isBreak = false) (h : Relaid ts us) :
      Relaid (t :: ts) (t :: us)
  | break {t u : Token} {feeds ts us : List Token} (ht : t.isBreak = true)
      (hu : u = t ∨ u.isSymbol .lineBreak = true)
      (hf : ∀ f ∈ feeds, f.isSymbol .lineBreak = true) (h : Relaid ts us) :
      Relaid (t :: ts) (u :: (feeds ++ us))

theorem relaid_relay (soft : Nat → Option Position) (feeds : Nat → List Position)
    (ts : List Token) : Relaid ts (relay soft feeds ts) := by
  induction ts generalizing soft feeds with
  | nil => exact .nil
  | cons t ts ih =>
    have hrest := ih (fun i => soft (i + 1)) (fun i => feeds (i + 1))
    have hrelay : relay soft feeds (t :: ts) =
        (if t.isBreak then (soft 0).elim t .feedAt :: (feeds 0).map .feedAt
          else [t]) ++ relay (fun i => soft (i + 1)) (fun i => feeds (i + 1)) ts := by
      simp [relay, List.mapIdx_cons]
    rw [hrelay]
    cases ht : t.isBreak with
    | false => exact .token ht hrest
    | true =>
      refine .break ht ?_ ?_ hrest
      · cases soft 0 with
        | none => exact .inl rfl
        | some p => exact .inr rfl
      · intro f hf
        obtain ⟨p, -, rfl⟩ := List.mem_map.mp hf
        rfl

namespace Token

theorem isBreak_of_lineBreak {t : Token} (h : t.isSymbol .lineBreak = true) : t.isBreak = true := by
  simp [isBreak, h]

/-- A break is a line feed or a semicolon. -/
theorem lineBreak_of_isBreak {t : Token} (h : t.isBreak = true)
    (hs : t.isSymbol .semicolon = false) : t.isSymbol .lineBreak = true := by
  simpa [isBreak, hs] using h

theorem not_break_of_isKeyword {t : Token} {k : Keyword} (h : t.isKeyword k = true) :
    t.isBreak = false := by
  have hk : t.kind = .keyword k := by simpa [isKeyword] using h
  simp [isBreak, isSymbol, hk]

end Token

namespace Relaid

variable {ts us : List Token}

/-- What stands in place of a break is one, and a line feed is only replaced by a line feed. -/
theorem isBreak_of_eq {t u : Token} (ht : t.isBreak = true)
    (hu : u = t ∨ u.isSymbol .lineBreak = true) : u.isBreak = true := by
  rcases hu with rfl | hu
  · exact ht
  · exact Token.isBreak_of_lineBreak hu

theorem lineBreak_of_eq {t u : Token} (ht : t.isSymbol .lineBreak = true)
    (hu : u = t ∨ u.isSymbol .lineBreak = true) : u.isSymbol .lineBreak = true := by
  rcases hu with rfl | hu
  · exact ht
  · exact hu

theorem eq_nil (h : Relaid [] us) : us = [] := by
  cases h
  rfl

theorem exists_cons {t : Token} (h : Relaid (t :: ts) us) (ht : t.isBreak = false) :
    ∃ us', us = t :: us' ∧ Relaid ts us' := by
  cases h with
  | token _ h => exact ⟨_, rfl, h⟩
  | «break» hb => simp [hb] at ht

/-! ## Parts -/

/-- Each part of a list is laid out by itself. -/
theorem exists_append {ts' vs : List Token} (h : Relaid (ts ++ ts') vs) :
    ∃ us us', vs = us ++ us' ∧ Relaid ts us ∧ Relaid ts' us' := by
  induction ts generalizing vs with
  | nil => exact ⟨[], vs, rfl, .nil, h⟩
  | cons t ts ih =>
    cases h with
    | token ht h =>
      obtain ⟨us, us', rfl, hl, hr⟩ := ih h
      exact ⟨t :: us, us', rfl, .token ht hl, hr⟩
    | @«break» _ u feeds _ _ ht hu hf h =>
      obtain ⟨us, us', rfl, hl, hr⟩ := ih h
      exact ⟨u :: (feeds ++ us), us', by simp, .break ht hu hf hl, hr⟩

theorem exists_append_cons {ts' vs : List Token} {t : Token} (h : Relaid (ts ++ t :: ts') vs)
    (ht : t.isBreak = false) :
    ∃ us us', vs = us ++ t :: us' ∧ Relaid ts us ∧ Relaid ts' us' := by
  obtain ⟨us, vs, rfl, hus, hvs⟩ := h.exists_append
  obtain ⟨us', rfl, hus'⟩ := hvs.exists_cons ht
  exact ⟨us, us', rfl, hus, hus'⟩

/-- What holds of all tokens still does if it holds of line feeds. -/
theorem forall_mem {Q : Token → Prop} (h : Relaid ts us) (hts : ∀ t ∈ ts, Q t)
    (hfeed : ∀ u, u.isSymbol .lineBreak = true → Q u) : ∀ u ∈ us, Q u := by
  induction h with
  | nil => exact hts
  | token _ _ ih =>
    obtain ⟨ht, hts⟩ := List.forall_mem_cons.mp hts
    exact List.forall_mem_cons.mpr ⟨ht, ih hts⟩
  | @«break» t u feeds _ _ _ hu hf _ ih =>
    obtain ⟨ht, hts⟩ := List.forall_mem_cons.mp hts
    have hq : Q u := hu.elim (fun heq => heq ▸ ht) (hfeed u)
    have hfeeds : ∀ f ∈ feeds, Q f := fun f hm => hfeed f (hf f hm)
    exact List.forall_mem_cons.mpr ⟨hq, List.forall_mem_append.mpr ⟨hfeeds, ih hts⟩⟩

theorem head_isBreak (h : Relaid ts us) (hts : ∀ t ∈ ts.head?, t.isBreak = true) :
    ∀ u ∈ us.head?, u.isBreak = true := by
  cases h with
  | nil => exact hts
  | token _ _ => simpa using hts
  | «break» ht hu _ _ => simpa using isBreak_of_eq ht hu

/-- Behind all breaks both layouts go on alike. -/
theorem dropBreaks (h : Relaid ts us) :
    Relaid (ts.dropWhile Token.isBreak) (us.dropWhile Token.isBreak) := by
  induction h with
  | nil => exact .nil
  | token ht h _ => simpa [ht] using Relaid.token ht h
  | @«break» t u feeds _ _ ht hu hf _ ih =>
    have hfeeds : ∀ f ∈ feeds, f.isBreak = true := fun f hm => Token.isBreak_of_lineBreak (hf f hm)
    rwa [List.dropWhile_cons_of_pos ht, List.dropWhile_cons_of_pos (isBreak_of_eq ht hu),
      List.dropWhile_append_of_pos hfeeds]

/-- Without breaks there is nothing to lay out. -/
theorem eq_of_forall (h : Relaid ts us) (hts : ∀ t ∈ ts, t.isBreak = false) : us = ts := by
  induction h with
  | nil => rfl
  | token ht h ih => rw [ih (List.forall_mem_cons.mp hts).2]
  | «break» ht hu hf h ih => simp [ht] at hts

/-- Without semicolons the lists differ by line feeds only. -/
theorem filter_eq (h : Relaid ts us) (hts : ∀ t ∈ ts, t.isSymbol .semicolon = false) :
    us.filter (!·.isSymbol .lineBreak) = ts.filter (!·.isSymbol .lineBreak) := by
  induction h with
  | nil => rfl
  | token ht h ih => rw [List.filter_cons, List.filter_cons, ih (List.forall_mem_cons.mp hts).2]
  | @«break» t u feeds ts us ht hu hf h ih =>
    obtain ⟨hsemi, hts⟩ := List.forall_mem_cons.mp hts
    have hline := Token.lineBreak_of_isBreak ht hsemi
    have hfeeds : feeds.filter (!·.isSymbol .lineBreak) = [] := by
      simpa [List.filter_eq_nil_iff] using hf
    simp [hline, lineBreak_of_eq hline hu, hfeeds, ih hts]

end Relaid

/-- What holds no brace goes to the block. -/
theorem splitBlock_append {gap : List Token} (hg : ∀ t ∈ gap, t.isBrace = false) (depth : Nat)
    (ts : List Token) :
    splitBlock depth (gap ++ ts) = (splitBlock depth ts).map fun x => (gap ++ x.1, x.2) := by
  induction gap with
  | nil => simp
  | cons t gap ih =>
    obtain ⟨ht, hgap⟩ := List.forall_mem_cons.mp hg
    obtain ⟨hopen, hclose⟩ := Bool.or_eq_false_iff.mp ht
    simp [splitBlock, hopen, hclose, ih hgap, Function.comp_def]

/-- A block is split off at the same brace. -/
theorem Relaid.exists_splitBlock {ts us body rest : List Token} (h : Relaid ts us) {depth : Nat}
    (hs : splitBlock depth ts = some (body, rest)) : ∃ body' rest',
      splitBlock depth us = some (body', rest') ∧ Relaid body body' ∧ Relaid rest rest' := by
  induction h generalizing depth body with
  | nil => cases hs
  | @token t ts us ht h ih =>
    -- Behind a token that is not the brace the block goes on.
    have hinner : ∀ {d : Nat}, (splitBlock d ts).map (fun x => (t :: x.1, x.2)) =
        some (body, rest) → ∃ body' rest', (splitBlock d us).map (fun x => (t :: x.1, x.2)) =
          some (body', rest') ∧ Relaid body body' ∧ Relaid rest rest' := by
      intro d hmap
      obtain ⟨⟨inner, left⟩, hsplit, heq⟩ := Option.map_eq_some_iff.mp hmap
      cases heq
      obtain ⟨inner', left', hsplit', hi, hl⟩ := ih hsplit
      exact ⟨t :: inner', left', by rw [hsplit']; rfl, .token ht hi, hl⟩
    unfold splitBlock at hs ⊢
    cases hclose : t.isSymbol .braceClose with
    | false =>
      simp only [hclose, Bool.false_eq_true, if_false] at hs ⊢
      exact hinner hs
    | true =>
      simp only [hclose, if_true] at hs ⊢
      cases depth with
      | zero =>
        cases hs
        exact ⟨[], us, rfl, .nil, h⟩
      | succ depth => exact hinner hs
  | @«break» t u feeds ts us ht hu hf h ih =>
    have hbrace : ∀ v ∈ u :: feeds, v.isBrace = false := by
      refine List.forall_mem_cons.mpr ⟨Token.not_brace_of_break (isBreak_of_eq ht hu), ?_⟩
      exact fun f hm => Token.not_brace_of_lineBreak (hf f hm)
    have hsingle : ∀ v ∈ [t], v.isBrace = false := by simpa using Token.not_brace_of_break ht
    rw [← List.singleton_append, splitBlock_append hsingle] at hs
    obtain ⟨⟨inner, left⟩, hsplit, heq⟩ := Option.map_eq_some_iff.mp hs
    cases heq
    obtain ⟨inner', left', hsplit', hi, hl⟩ := ih hsplit
    refine ⟨u :: (feeds ++ inner'), left', ?_, .break ht hu hf hi, hl⟩
    rw [← List.cons_append, splitBlock_append hbrace, hsplit']
    rfl

/-! ## Where semicolons may not stand -/

section Reading

variable {o : Outline}

theorem Expr.inExpr_of_parse {ts : List Token} {e : Expr} (h : Expr.parse o ts = .ok e) :
    ∀ t ∈ ts, t.inExpr = true := by
  obtain ⟨items, hitems, -⟩ := exists_build_of_parse h
  exact (perm_of_postorder (.covered .nil) hitems).2.2

/-- A guard is the same in both layouts: it has no semicolon, and its line feeds do not count. -/
theorem Expr.parse_guard {gs gs' : List Token} {e : Expr} (hr : Relaid gs gs')
    (h : Expr.parse o (gs.filter (!·.isSymbol .lineBreak)) = .ok e) :
    Expr.parse o (gs'.filter (!·.isSymbol .lineBreak)) = .ok e := by
  rw [hr.filter_eq, h]
  intro t ht
  refine Bool.eq_false_iff.mpr fun hsemi => ?_
  have hkind : t.kind = .symbol .semicolon := by simpa [Token.isSymbol] using hsemi
  have hmem : t ∈ gs.filter (!·.isSymbol .lineBreak) :=
    List.mem_filter.mpr ⟨ht, by simp [Token.isSymbol, hkind]⟩
  have hin := Expr.inExpr_of_parse h t hmem
  simp [Token.inExpr, hkind, Symbol.inExpr, Operator.ofSymbol?] at hin

/-- Tokens that do not go on with an `else`, whatever breaks there are. -/
def NoElseBehind (ts : List Token) : Prop :=
  ∀ t ∈ (ts.dropWhile Token.isBreak).head?, t.isKeyword .else = false

/-- Statements that can be read do not start with an `else`. -/
theorem Stmt.Reads.noElseBehind {ts : List Token} {ss : List Stmt} (h : Stmt.Reads o ts ss) :
    NoElseBehind ts := by
  cases h with
  | nil hg =>
    have hdrop := (takeWhile_dropWhile_append hg [] (by simp)).2
    rw [List.append_nil] at hdrop
    simp [NoElseBehind, hdrop]
  | simple hg _ helse hts _ _ _ =>
    have ht := (List.forall_mem_cons.mp hts).1
    simpa [NoElseBehind, List.dropWhile_append_of_pos hg, ht] using helse
  | branch p hg _ _ =>
    simp [NoElseBehind, List.dropWhile_append_of_pos hg, Token.isBreak, Token.isSymbol,
      Token.isKeyword]

/-- Behind all breaks both layouts go on alike, so there is no `else` behind the line feeds of the
other one. -/
theorem Relaid.noElse {ts us : List Token} (hr : Relaid ts us) (h : NoElseBehind ts) :
    NoElse us := by
  intro t ht
  obtain ⟨rest, hdrop⟩ := List.head?_eq_some_iff.mp ht
  cases helse : t.isKeyword .else with
  | false => rfl
  | true =>
    have hb : t.isBreak = false := Token.not_break_of_isKeyword helse
    have hbreaks : us.dropWhile Token.isBreak = t :: rest := by
      rw [← List.takeWhile_append_dropWhile (p := (·.isSymbol .lineBreak)) (l := us), hdrop]
      refine (takeWhile_dropWhile_append (fun u hu => ?_) _ (by simpa using hb)).2
      exact Token.isBreak_of_lineBreak (List.all_eq_true.mp List.all_takeWhile u hu)
    have hcut := hr.dropBreaks
    rw [hbreaks] at hcut
    cases hts : ts.dropWhile Token.isBreak with
    | nil =>
      rw [hts] at hcut
      cases hcut.eq_nil
    | cons t' rest' =>
      rw [hts] at hcut
      obtain ⟨us', heq, -⟩ := hcut.exists_cons (head_of_dropWhile hts)
      cases heq
      rw [← helse]
      exact h t (by simp [hts])

/-! ## Reading -/

-- What is left behind a conditional must not go on with an `else`: a semicolon in front of that
-- ends the chain, and a line feed would not.
mutual

/-- Statements are read alike from both layouts. -/
theorem Stmt.Reads.relaid {ts us : List Token} {ss : List Stmt} (h : Stmt.Reads o ts ss)
    (hr : Relaid ts us) : Stmt.Reads o us ss := by
  match h with
  | .nil hg => exact .nil (hr.forall_mem hg fun _ => Token.isBreak_of_lineBreak)
  | .simple hg hif helse hts hus he hss =>
    obtain ⟨ht, hline⟩ := List.forall_mem_cons.mp hts
    obtain ⟨gap', vs, rfl, hgap, hvs⟩ := hr.exists_append_cons ht
    obtain ⟨line', us', rfl, hline', hus'⟩ := hvs.exists_append
    obtain rfl := hline'.eq_of_forall hline
    have hg' := hgap.forall_mem hg fun _ => Token.isBreak_of_lineBreak
    exact .simple hg' hif helse hts (hus'.head_isBreak hus) he (hss.relaid hus')
  | .branch p hg hc hss =>
    obtain ⟨gap', ts', rfl, hgap, hts⟩ := hr.exists_append_cons rfl
    obtain ⟨rest', hc', hrest⟩ := hc.relaid hts hss.noElseBehind
    have hg' := hgap.forall_mem hg fun _ => Token.isBreak_of_lineBreak
    exact .branch p hg' hc' (hss.relaid hrest)

theorem Conditional.Reads.relaid {p : Position} {ts us rest : List Token} {c : Conditional}
    (h : Conditional.Reads o p ts c rest) (hr : Relaid ts us) (hrest : NoElseBehind rest) :
    ∃ rest', Conditional.Reads o p us c rest' ∧ Relaid rest rest' := by
  match h with
  | .mk p l hgs hg hs hb ho =>
    obtain ⟨gs', ts', rfl, hguard, hts⟩ := hr.exists_append_cons rfl
    obtain ⟨inner', behind', hs', hinner, hbehind⟩ := hts.exists_splitBlock hs
    obtain ⟨rest', ho', hrest'⟩ := ho.relaid hbehind hrest
    have hgs' := hguard.forall_mem hgs fun u hu =>
      (Bool.or_eq_false_iff.mp (Token.not_brace_of_lineBreak hu)).1
    exact ⟨rest', .mk p l hgs' (Expr.parse_guard hguard hg) hs' (hb.relaid hinner) ho', hrest'⟩

theorem Otherwise.Reads.relaid {ts us rest : List Token} {other : Otherwise}
    (h : Otherwise.Reads o ts other rest) (hr : Relaid ts us) (hrest : NoElseBehind rest) :
    ∃ rest', Otherwise.Reads o us other rest' ∧ Relaid rest rest' := by
  match h with
  | .nothing _ => exact ⟨us, .nothing (hr.noElse hrest), hr⟩
  | .block hg p l hs hb =>
    obtain ⟨gap', vs, rfl, hgap, hvs⟩ := hr.exists_append_cons rfl
    obtain ⟨ts', rfl, hts⟩ := hvs.exists_cons rfl
    obtain ⟨inner', rest', hs', hinner, hrest'⟩ := hts.exists_splitBlock hs
    exact ⟨rest', .block (hgap.forall_mem hg fun _ => id) p l hs' (hb.relaid hinner), hrest'⟩
  | .chain hg p q hc =>
    obtain ⟨gap', vs, rfl, hgap, hvs⟩ := hr.exists_append_cons rfl
    obtain ⟨ts', rfl, hts⟩ := hvs.exists_cons rfl
    obtain ⟨rest', hc', hrest'⟩ := hc.relaid hts hrest
    exact ⟨rest', .chain (hgap.forall_mem hg fun _ => id) p q hc', hrest'⟩

end

/-- A list of statements stays the same, positions included, when any of its semicolons become line
feeds and any line feeds are added behind its breaks. -/
theorem Stmt.parse_relay {ts : List Token} {ss : List Stmt} (h : Stmt.parse o ts = .ok ss)
    (soft : Nat → Option Position) (feeds : Nat → List Position) :
    Stmt.parse o (relay soft feeds ts) = .ok ss :=
  Stmt.parse_eq_ok.mpr ((Stmt.parse_eq_ok.mp h).relaid (relaid_relay soft feeds ts))

end Reading

/-- A chain of conditionals with a line feed in a guard and one before an `else`, and with
semicolons in a block and around the chain. -/
def breakSample : List Token :=
  [.ident "x", .symbol .assign, .literal (.int 1), .symbol .semicolon, .keyword .if, .ident "x",
   .symbol .less, .symbol .lineBreak, .literal (.int 2), .symbol .braceOpen, .symbol .semicolon,
   .ident "y", .symbol .assign, .ident "x", .symbol .semicolon, .symbol .braceClose,
   .symbol .lineBreak, .keyword .else, .keyword .if, .literal (.bool true), .symbol .braceOpen,
   .symbol .braceClose, .symbol .semicolon, .keyword .return,
   .ident "x"].mapIdx fun i kind => ⟨kind, Expr.column i⟩

/-- All semicolons of `breakSample` but the one at index 10 become line feeds, and line feeds are
added in the guard and behind the chain. -/
def breakSampleRelaid : List Token :=
  relay (fun i => if i = 10 then none else some (Expr.column i))
    (fun i => if i = 7 ∨ i = 22 then [Expr.column 30, Expr.column 31] else []) breakSample

theorem Stmt.parse_relay_sample : ∃ ss, Stmt.parse .empty breakSample = .ok ss ∧ ss.length = 3 ∧
    (breakSampleRelaid.filter (·.isBreak)).map (·.kind) = [.symbol .lineBreak, .symbol .lineBreak,
      .symbol .lineBreak, .symbol .lineBreak, .symbol .semicolon, .symbol .lineBreak,
      .symbol .lineBreak, .symbol .lineBreak, .symbol .lineBreak, .symbol .lineBreak] ∧
    Stmt.parse .empty breakSampleRelaid = .ok ss := by
  have hread : (Stmt.parse .empty breakSample).toOption.map (·.length) = some 3 := by decide +kernel
  cases hparse : Stmt.parse .empty breakSample with
  | error e => simp [hparse, Except.toOption] at hread
  | ok ss =>
    refine ⟨ss, rfl, ?_, by decide, Stmt.parse_relay hparse _ _⟩
    simpa [hparse, Except.toOption] using hread

end ProcLang

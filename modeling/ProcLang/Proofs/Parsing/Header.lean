import Mathlib.Data.List.Forall2
import ProcLang.Declaration.Header
import ProcLang.ListLemmas

/-!
# The grammar of headers

A header is a list of parameters, which may be empty, and behind an `->` a list of results, which
may not. What stands between two commas is read on its own.

## Main definitions

* `Commas` — things with commas between them.
* `Header.Renders` — the tokens of a header, line feeds left out.
* `Header.faults` — what can be wrong with a header.
* `Header.arity` — how many types stand before the `->`.

## Main statements

* `Header.parse_eq_ok` — headers are read exactly by their grammar.
* `Header.accepted_exactly` — what is no header is reported as malformed.
* `Header.arity_of_renders` — there is one type for each parameter.
-/
namespace ProcLang

/-! ## Commas -/

/-- Things with commas between them, at least one, if `R` tells what the tokens of one are. -/
inductive Commas {α : Type} (R : α → List Token → Prop) : List α → List Token → Prop where
  | one {a : α} {ts : List Token} (h : R a ts) : Commas R [a] ts
  | cons {a : α} {as : List α} {ts us : List Token} (p : Position) (h : R a ts)
      (has : Commas R as us) : Commas R (a :: as) (ts ++ ⟨.symbol .comma, p⟩ :: us)

namespace Commas

variable {α : Type} {R S : α → List Token → Prop} {as : List α} {ts : List Token}

theorem imp (h : Commas R as ts) (hRS : ∀ {a us}, R a us → S a us) : Commas S as ts := by
  induction h with
  | one h => exact .one (hRS h)
  | cons p h _ ih => exact .cons p (hRS h) ih

/-- What holds of commas and of the tokens of each thing holds of all tokens. -/
theorem forall_mem {P : Token → Prop} (h : Commas R as ts)
    (hcomma : ∀ p, P ⟨.symbol .comma, p⟩) (hR : ∀ {a us}, R a us → ∀ t ∈ us, P t) :
    ∀ t ∈ ts, P t := by
  induction h with
  | one h => exact hR h
  | cons p h _ ih =>
    intro t ht
    rcases List.mem_append.mp ht with ht | ht
    · exact hR h t ht
    · rcases List.mem_cons.mp ht with rfl | ht
      · exact hcomma p
      · exact ih t ht

theorem exists_of_mem (h : Commas R as ts) {a : α} (ha : a ∈ as) : ∃ us, R a us ∧ us ⊆ ts := by
  induction h with
  | one h =>
    obtain rfl := List.mem_singleton.mp ha
    exact ⟨_, h, List.Subset.refl _⟩
  | cons p h _ ih =>
    rcases List.mem_cons.mp ha with rfl | ha
    · exact ⟨_, h, List.subset_append_left _ _⟩
    · obtain ⟨us, hus, hsub⟩ := ih ha
      exact ⟨us, hus, fun t ht => List.mem_append_right _ (List.mem_cons_of_mem _ (hsub ht))⟩

theorem ne_nil (h : Commas R as ts) (hR : ∀ {a us}, R a us → us ≠ []) : ts ≠ [] := by
  cases h with
  | one h => exact hR h
  | cons => simp

end Commas

/-- A list up to the first element that `q` holds of. -/
theorem exists_first {α : Type} (q : α → Bool) (l : List α) :
    (∀ x ∈ l, q x = false) ∨ ∃ l₁ x l₂, l = l₁ ++ x :: l₂ ∧ q x = true ∧ ∀ y ∈ l₁, q y = false := by
  induction l with
  | nil => exact .inl (by simp)
  | cons a l ih =>
    cases ha : q a with
    | true => exact .inr ⟨[], a, l, rfl, ha, by simp⟩
    | false =>
      rcases ih with h | ⟨l₁, x, l₂, rfl, hx, h⟩
      · exact .inl (List.forall_mem_cons.mpr ⟨ha, h⟩)
      · exact .inr ⟨a :: l₁, x, l₂, rfl, hx, List.forall_mem_cons.mpr ⟨ha, h⟩⟩

theorem bind_eq_ok {ε α β : Type} {x : Except ε α} {k : α → Except ε β} {b : β} :
    (x >>= k) = .ok b ↔ ∃ a, x = .ok a ∧ k a = .ok b := by
  cases x with
  | error e => simp [bind, Except.bind]
  | ok a => simp [bind, Except.bind]

theorem bind_eq_error {ε α β : Type} {x : Except ε α} {k : α → Except ε β} {e : ε} :
    (x >>= k) = .error e ↔ x = .error e ∨ ∃ a, x = .ok a ∧ k a = .error e := by
  cases x with
  | error e => simp [bind, Except.bind]
  | ok a => simp [bind, Except.bind]

theorem map_eq_ok {ε α β : Type} {x : Except ε α} {f : α → β} {b : β} :
    x.map f = .ok b ↔ ∃ a, x = .ok a ∧ f a = b := by
  cases x with
  | error e => simp [Except.map]
  | ok a => simp [Except.map]

theorem mapM_eq_ok {ε α β : Type} {f : α → Except ε β} {l : List α} {bs : List β} :
    l.mapM f = .ok bs ↔ List.Forall₂ (fun a b => f a = .ok b) l bs := by
  induction l generalizing bs with
  | nil => simp [pure, Except.pure, eq_comm]
  | cons a l ih =>
    rw [List.mapM_cons, List.forall₂_cons_left_iff]
    simp only [bind_eq_ok, ih, pure, Except.pure, Except.ok.injEq]
    constructor
    · rintro ⟨b, hb, bs', hbs, rfl⟩
      exact ⟨b, bs', hb, hbs, rfl⟩
    · rintro ⟨b, bs', hb, hbs, rfl⟩
      exact ⟨b, hb, bs', hbs, rfl⟩

theorem mapM_eq_error {ε α β : Type} {f : α → Except ε β} {l : List α} {e : ε}
    (h : l.mapM f = .error e) : ∃ a ∈ l, f a = .error e := by
  induction l with
  | nil => cases h
  | cons a l ih =>
    rw [List.mapM_cons, bind_eq_error] at h
    rcases h with h | ⟨b, -, h⟩
    · exact ⟨a, List.mem_cons_self, h⟩
    · rcases bind_eq_error.mp h with h | ⟨bs, -, h⟩
      · obtain ⟨a', ha', he⟩ := ih h
        exact ⟨a', List.mem_cons_of_mem a ha', he⟩
      · cases h

/-- What is cut at the commas is read piece by piece. -/
theorem mapM_splitOnP_eq_ok {ε α : Type} {f : List Token → Except ε α} {ts : List Token}
    {as : List α} : (ts.splitOnP (·.isSymbol .comma)).mapM f = .ok as ↔
      Commas (fun a us => (∀ t ∈ us, t.isSymbol .comma = false) ∧ f us = .ok a) as ts := by
  rw [mapM_eq_ok]
  constructor
  · intro h
    induction hn : ts.length using Nat.strongRecOn generalizing ts as with
    | ind n ih =>
      rcases exists_first (·.isSymbol .comma) ts with hall | ⟨us, t, ws, rfl, ht, hall⟩
      · rw [List.splitOnP_eq_singleton hall] at h
        cases h with
        | cons ha hnil =>
          cases hnil
          exact .one ⟨hall, ha⟩
      · rw [List.splitOnP_append_cons_of_forall_mem hall t ht] at h
        obtain ⟨kind, p⟩ := t
        obtain rfl : kind = .symbol .comma := by simpa [Token.isSymbol] using ht
        cases h with
        | cons ha has => exact .cons p ⟨hall, ha⟩ (ih ws.length (by simp [← hn]; omega) has rfl)
  · intro h
    induction h with
    | one h =>
      rw [List.splitOnP_eq_singleton h.1]
      exact .cons h.2 .nil
    | cons p h _ ih =>
      rw [List.splitOnP_append_cons_of_forall_mem h.1 _ rfl]
      exact .cons h.2 ih

/-! ## Headers -/

/-- The tokens of a parameter. -/
inductive Param.Renders : Param → List Token → Prop where
  | mk (name : String) (ty : Ty) (p q : Position) :
      Param.Renders ⟨name, ty⟩ [⟨.type ty, p⟩, ⟨.ident name, q⟩]

/-- The tokens of a result, which may have a name. -/
inductive Ty.Renders : Ty → List Token → Prop where
  | bare (ty : Ty) (p : Position) : Ty.Renders ty [⟨.type ty, p⟩]
  | named (ty : Ty) (name : String) (p q : Position) :
      Ty.Renders ty [⟨.type ty, p⟩, ⟨.ident name, q⟩]

namespace Header

/-- The tokens of parameters. -/
inductive RendersParams : List Param → List Token → Prop where
  | nothing : RendersParams [] []
  | listed {ps : List Param} {ts : List Token} (h : Commas Param.Renders ps ts) :
      RendersParams ps ts

/-- The tokens of results. -/
inductive RendersReturns : List Ty → List Token → Prop where
  | nothing : RendersReturns [] []
  | behind {tys : List Ty} {ts : List Token} (p : Position) (h : Commas Ty.Renders tys ts) :
      RendersReturns tys (⟨.symbol .arrow, p⟩ :: ts)

/-- The tokens of a header. -/
inductive Renders : List Param → List Ty → List Token → Prop where
  | mk {ps : List Param} {tys : List Ty} {ts us : List Token} (hp : RendersParams ps ts)
      (hr : RendersReturns tys us) : Renders ps tys (ts ++ us)

/-- Tokens that can stand in a list of parameters or results. -/
def isListed (t : Token) : Bool :=
  match t.kind with
  | .type _ | .ident _ | .symbol .comma => true
  | _ => false

theorem isListed_param {p : Param} {ts : List Token} (h : p.Renders ts) :
    ∀ t ∈ ts, isListed t = true := by
  cases h
  simp [isListed]

theorem isListed_return {ty : Ty} {ts : List Token} (h : ty.Renders ts) :
    ∀ t ∈ ts, isListed t = true := by
  cases h <;> simp [isListed]

theorem listed_of_params {ps : List Param} {ts : List Token} (h : RendersParams ps ts) :
    ∀ t ∈ ts, isListed t = true := by
  cases h with
  | nothing => simp
  | listed h => exact h.forall_mem (fun _ => rfl) isListed_param

/-- The only symbols in lists are commas. -/
theorem isSymbol_of_listed {t : Token} (h : isListed t = true) {s : Symbol} (hs : s ≠ .comma) :
    t.isSymbol s = false := by
  unfold isListed at h
  split at h <;> simp_all [Token.isSymbol, hs.symm]

theorem not_arrow {t : Token} (h : isListed t = true) : t.isSymbol .arrow = false :=
  isSymbol_of_listed h (by decide)

theorem parseParam_eq_ok {f : String} {before : Option Token} {ts : List Token} {p : Param} :
    parseParam f before ts = .ok p ↔ p.Renders ts := by
  constructor
  · intro h
    unfold parseParam at h
    split at h
    next ty name =>
      obtain ⟨tyKind, tyPos⟩ := ty
      obtain ⟨nameKind, namePos⟩ := name
      split at h
      next t n ht hn =>
        cases ht
        cases hn
        cases h
        exact .mk _ _ _ _
      next => cases h
    next => cases h
  · intro h
    cases h
    rfl

theorem parseReturn_eq_ok {f : String} {behind : Option Token} {ts : List Token} {ty : Ty} :
    parseReturn f behind ts = .ok ty ↔ ty.Renders ts := by
  constructor
  · intro h
    unfold parseReturn at h
    split at h
    next t =>
      obtain ⟨kind, pos⟩ := t
      split at h
      next ty ht =>
        cases ht
        cases h
        exact .bare _ _
      next => cases h
    next t name =>
      obtain ⟨kind, pos⟩ := t
      obtain ⟨nameKind, namePos⟩ := name
      split at h
      next t n ht hn =>
        cases ht
        cases hn
        cases h
        exact .named _ _ _ _
      next => cases h
    next => cases h
  · intro h
    cases h <;> rfl

/-- Pieces that never hold a comma. -/
theorem commas_iff {α : Type} {R : α → List Token → Prop} {f : List Token → Except ParseError α}
    (hf : ∀ {a us}, f us = .ok a ↔ R a us) (hcomma : ∀ {a us}, R a us → ∀ t ∈ us,
      t.isSymbol .comma = false) {as : List α} {ts : List Token} :
    (ts.splitOnP (·.isSymbol .comma)).mapM f = .ok as ↔ Commas R as ts := by
  rw [mapM_splitOnP_eq_ok]
  exact ⟨fun h => h.imp fun h => hf.mp h.2, fun h => h.imp fun h => ⟨hcomma h, hf.mpr h⟩⟩

theorem parseReturns_eq_ok {f : String} {behind : Option Token} {ts : List Token} {tys : List Ty} :
    parseReturns f behind ts = .ok tys ↔ Commas Ty.Renders tys ts := by
  refine commas_iff parseReturn_eq_ok fun h => ?_
  cases h <;> simp [Token.isSymbol]

theorem parseParams_eq_ok {f : String} {before : Option Token} {ts : List Token}
    {ps : List Param} : parseParams f before ts = .ok ps ↔ RendersParams ps ts := by
  have hcommas : (ts.splitOnP (·.isSymbol .comma)).mapM (parseParam f before) = .ok ps ↔
      Commas Param.Renders ps ts := by
    refine commas_iff parseParam_eq_ok fun h => ?_
    cases h
    simp [Token.isSymbol]
  have hne : ∀ {ps ts}, Commas Param.Renders ps ts → ts ≠ [] := by
    intro ps ts h
    refine h.ne_nil fun h => ?_
    cases h
    simp
  constructor
  · intro h
    unfold parseParams at h
    split at h
    · cases h
      exact .nothing
    · exact .listed (hcommas.mp h)
  · intro h
    cases h with
    | nothing => rfl
    | listed h =>
      unfold parseParams
      split
      · exact absurd rfl (hne h)
      · exact hcommas.mpr h

theorem listed_of_returns {tys : List Ty} {ts : List Token} (h : Commas Ty.Renders tys ts) :
    ∀ t ∈ ts, isListed t = true := h.forall_mem (fun _ => rfl) isListed_return

theorem Renders.listed_or_arrow {ps : List Param} {tys : List Ty} {ts : List Token}
    (h : Renders ps tys ts) : ∀ t ∈ ts, isListed t = true ∨ t.kind = .symbol .arrow := by
  obtain ⟨hp, hr⟩ := h
  intro t ht
  rcases List.mem_append.mp ht with ht | ht
  · exact .inl (listed_of_params hp t ht)
  · cases hr with
    | nothing => cases ht
    | behind p h =>
      rcases List.mem_cons.mp ht with rfl | ht
      · exact .inr rfl
      · exact .inl (listed_of_returns h t ht)

/-- Headers are read exactly by their grammar. -/
theorem parse_eq_ok {f : String} {ts : List Token} {ps : List Param} {tys : List Ty} :
    parse f ts = .ok (ps, tys) ↔ Renders ps tys (ts.filter (!·.isSymbol .lineBreak)) := by
  simp only [parse]
  generalize ts.filter (!·.isSymbol .lineBreak) = header
  constructor
  · intro h
    rcases exists_first (·.isSymbol .arrow) header with hall | ⟨us, t, ws, rfl, ht, hall⟩
    · rw [List.splitOnP_eq_singleton hall] at h
      obtain ⟨ps', hps, hret⟩ := bind_eq_ok.mp h
      cases hret
      simpa using Renders.mk (parseParams_eq_ok.mp hps) .nothing
    · rw [List.splitOnP_append_cons_of_forall_mem hall t ht] at h
      obtain ⟨kind, p⟩ := t
      obtain rfl : kind = .symbol .arrow := by simpa [Token.isSymbol] using ht
      rcases exists_first (·.isSymbol .arrow) ws with hall' | ⟨us', t', ws', rfl, ht', hall'⟩
      · rw [List.splitOnP_eq_singleton hall'] at h
        obtain ⟨ps', hps, h⟩ := bind_eq_ok.mp h
        obtain ⟨tys', htys, hret⟩ := bind_eq_ok.mp h
        cases hret
        exact .mk (parseParams_eq_ok.mp hps) (.behind p (parseReturns_eq_ok.mp htys))
      · -- There is a second `->`, so that the pieces are three or more.
        rw [List.splitOnP_append_cons_of_forall_mem hall' t' ht'] at h
        cases hrest : ws'.splitOnP (·.isSymbol .arrow) with
        | nil => exact absurd hrest (List.splitOnP_ne_nil _ _)
        | cons piece pieces => simp [hrest] at h
  · rintro ⟨hp, hr⟩
    have hparams := fun t ht => not_arrow (listed_of_params hp t ht)
    cases hr with
    | nothing =>
      rw [List.append_nil, List.splitOnP_eq_singleton hparams]
      exact bind_eq_ok.mpr ⟨_, parseParams_eq_ok.mpr hp, rfl⟩
    | behind p h =>
      rw [List.splitOnP_append_cons_of_forall_mem hparams _ rfl,
        List.splitOnP_eq_singleton fun t ht => not_arrow (listed_of_returns h t ht)]
      refine bind_eq_ok.mpr ⟨_, parseParams_eq_ok.mpr hp, bind_eq_ok.mpr ⟨_, ?_, rfl⟩⟩
      exact parseReturns_eq_ok.mpr h

/-! ## Headers that are refused -/

/-- What can be wrong with the header of `function`. -/
def faults (function : String) : List ParseCause :=
  [.repeatedArrow function, .malformedParam function, .danglingParam function,
   .malformedReturn function, .danglingReturn function]

theorem kind_of_mem_faults {f : String} {c : ParseCause} (h : c ∈ faults f) :
    c.kind = .malformedHeader := by
  simp only [faults, List.mem_cons, List.not_mem_nil, or_false] at h
  rcases h with rfl | rfl | rfl | rfl | rfl <;> rfl

theorem parseParam_error {f : String} {before : Option Token} {ts : List Token} {e : ParseError}
    (h : parseParam f before ts = .error e) : e.cause ∈ faults f := by
  unfold parseParam at h
  split at h
  next =>
    split at h
    next => cases h
    next =>
      cases h
      simp [faults]
  next =>
    cases h
    simp [faults]

theorem parseReturn_error {f : String} {behind : Option Token} {ts : List Token} {e : ParseError}
    (h : parseReturn f behind ts = .error e) : e.cause ∈ faults f := by
  unfold parseReturn at h
  split at h
  next =>
    split at h
    next => cases h
    next =>
      cases h
      simp [faults]
  next =>
    split at h
    next => cases h
    next =>
      cases h
      simp [faults]
  next =>
    cases h
    simp [faults]

theorem parseParams_error {f : String} {before : Option Token} {ts : List Token} {e : ParseError}
    (h : parseParams f before ts = .error e) : e.cause ∈ faults f := by
  unfold parseParams at h
  split at h
  · cases h
  · obtain ⟨piece, -, h⟩ := mapM_eq_error h
    exact parseParam_error h

/-- A header that is refused is reported as such. -/
theorem cause_of_parse {f : String} {ts : List Token} {e : ParseError}
    (h : parse f ts = .error e) : e.cause ∈ faults f := by
  simp only [parse] at h
  split at h
  · cases h
  · rcases bind_eq_error.mp h with h | ⟨ps, -, h⟩
    · exact parseParams_error h
    · cases h
  · rcases bind_eq_error.mp h with h | ⟨ps, -, h⟩
    · exact parseParams_error h
    · rcases bind_eq_error.mp h with h | ⟨tys, -, h⟩
      · obtain ⟨piece, -, h⟩ := mapM_eq_error h
        exact parseReturn_error h
      · cases h
  · cases h
    simp [faults]

/-- Headers are accepted exactly by their grammar, and all others are reported as malformed. -/
theorem accepted_exactly (f : String) (ts : List Token) :
    (∀ ps tys, parse f ts = .ok (ps, tys) ↔ Renders ps tys (ts.filter (!·.isSymbol .lineBreak))) ∧
      ((¬ ∃ ps tys, Renders ps tys (ts.filter (!·.isSymbol .lineBreak))) ↔
        ∃ e, parse f ts = .error e ∧ e.cause ∈ faults f ∧
          e.diagnostic.kind = .malformedHeader) := by
  refine ⟨fun ps tys => parse_eq_ok, ?_⟩
  cases h : parse f ts with
  | ok header =>
    obtain ⟨ps, tys⟩ := header
    have hrenders := parse_eq_ok.mp h
    simp only [reduceCtorEq, false_and, exists_false, iff_false, not_not]
    exact ⟨ps, tys, hrenders⟩
  | error e =>
    have hcause := cause_of_parse h
    refine ⟨fun _ => ⟨e, rfl, hcause, kind_of_mem_faults hcause⟩, ?_⟩
    rintro - ⟨ps, tys, hrenders⟩
    rw [parse_eq_ok.mpr hrenders] at h
    cases h

/-- A result may have a name or not, and a parameter may stand on two lines. -/
example (p : Position) :
    parse "f" [⟨.type .i32, p⟩, ⟨.symbol .lineBreak, p⟩, ⟨.ident "a", p⟩, ⟨.symbol .arrow, p⟩,
      ⟨.type .bool, p⟩, ⟨.symbol .comma, p⟩, ⟨.type .f64, p⟩, ⟨.ident "r", p⟩] =
      .ok ([⟨"a", .i32⟩], [.bool, .f64]) := rfl

/-! ## Counting parameters -/

/-- Whether a token is a type. -/
def isType (t : Token) : Bool :=
  match t.kind with
  | .type _ => true
  | _ => false

/-- How many types stand before the `->` of a header. -/
def arity (ts : List Token) : Nat := (ts.takeWhile (!·.isSymbol .arrow)).countP isType

theorem arity_filter (ts : List Token) : arity (ts.filter (!·.isSymbol .lineBreak)) = arity ts := by
  induction ts with
  | nil => rfl
  | cons t ts ih =>
    unfold arity at ih ⊢
    by_cases hbreak : t.isSymbol .lineBreak = true
    · have hkind : t.kind = .symbol .lineBreak := by simpa [Token.isSymbol] using hbreak
      have htype : ¬ isType t = true := by simp [isType, hkind]
      have harrow : t.isSymbol .arrow = false := by simp [Token.isSymbol, hkind]
      rw [List.filter_cons_of_neg (by simpa using hbreak), ih,
        List.takeWhile_cons_of_pos (by simp [harrow]), List.countP_cons_of_neg htype]
    · rw [List.filter_cons_of_pos (by simpa using hbreak), List.takeWhile_cons, List.takeWhile_cons]
      split
      · rw [List.countP_cons, List.countP_cons, ih]
      · rfl

theorem countP_isType {ps : List Param} {ts : List Token} (h : Commas Param.Renders ps ts) :
    ts.countP isType = ps.length := by
  induction h with
  | one h =>
    cases h
    rfl
  | cons p h _ ih =>
    cases h
    simp [List.countP_cons, isType, ih]

/-- A header has one type for each parameter. -/
theorem arity_of_renders {ps : List Param} {tys : List Ty} {ts : List Token}
    (h : Renders ps tys ts) : arity ts = ps.length := by
  cases h with
  | @mk us ws hp hr =>
    have hparams : ∀ t ∈ us, (!t.isSymbol .arrow) = true := by
      intro t ht
      simp [not_arrow (listed_of_params hp t ht)]
    have hbehind : ∀ t ∈ ws.head?, (!t.isSymbol .arrow) = false := by
      cases hr <;> simp [Token.isSymbol]
    rw [arity, (takeWhile_dropWhile_append hparams ws hbehind).1]
    cases hp with
    | nothing => rfl
    | listed h => exact countP_isType h

end Header
end ProcLang

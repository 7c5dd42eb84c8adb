import ProcLang.Proofs.Parsing.Layout

/-!
# Parentheses of an expression

No count of open parentheses is kept while an expression is read: they wait on one stack together
with operators and functions, and three different steps take things off it. Still the parentheses
on the stack are always those that are open, the innermost on top. So the faults of parentheses can
be told from the tokens alone, by counting: the first `)` or `,` that no `(` goes with is refused,
and if there is none, the last `(` that is left open.

## Main definitions

* `Expr.LeavesOpen`, `Expr.LastOpen` — tokens that leave a `(` open, and where the last one stands.
* `Expr.Stray`, `Expr.HasStray` — a `)` or `,` that no `(` goes with.
* `Expr.track` — the parentheses that are open behind a token.

## Main statements

* `Expr.exists_trackAll_iff` — tracking fails exactly at what is stray.
* `Expr.brackets_exact` — which faults of parentheses are reported, and where.
-/
namespace ProcLang.Expr

/-! ## Counting -/

/-- How many `(` there are. -/
def opens (ts : List Token) : Nat := ts.countP (·.isSymbol .parenOpen)

/-- How many `)` there are. -/
def closes (ts : List Token) : Nat := ts.countP (·.isSymbol .parenClose)

/-- No `)` among the tokens closes a `(` that stands before them. -/
def Contained (ts : List Token) : Prop := ∀ us, us <+: ts → closes us ≤ opens us

/-- A `(` among the tokens is not closed by the end of them. -/
def LeavesOpen (ts : List Token) : Prop :=
  ∃ before p after, ts = before ++ ⟨.symbol .parenOpen, p⟩ :: after ∧ Contained after

/-- The last `(` that is not closed stands at `p`. -/
def LastOpen (ts : List Token) (p : Position) : Prop :=
  ∃ before after, ts = before ++ ⟨.symbol .parenOpen, p⟩ :: after ∧ Contained after ∧
    ¬ LeavesOpen after

/-- A `)` that makes them more than the `(`, or a `,` where no `(` is open. -/
def Stray (before : List Token) (t : Token) : Prop :=
  t.kind = .symbol .parenClose ∧ opens (before ++ [t]) < closes (before ++ [t]) ∨
    t.kind = .symbol .comma ∧ ¬ LeavesOpen before

/-- Some `)` or `,` among the tokens is stray. -/
def HasStray (ts : List Token) : Prop :=
  ∃ before t after, ts = before ++ t :: after ∧ Stray before t

@[simp] theorem opens_append (ts us : List Token) : opens (ts ++ us) = opens ts + opens us :=
  List.countP_append

@[simp] theorem closes_append (ts us : List Token) : closes (ts ++ us) = closes ts + closes us :=
  List.countP_append

theorem opens_cons (t : Token) (ts : List Token) : opens (t :: ts) = opens [t] + opens ts :=
  opens_append [t] ts

theorem closes_cons (t : Token) (ts : List Token) : closes (t :: ts) = closes [t] + closes ts :=
  closes_append [t] ts

@[simp] theorem opens_open (p : Position) : opens [⟨.symbol .parenOpen, p⟩] = 1 := rfl

@[simp] theorem closes_open (p : Position) : closes [⟨.symbol .parenOpen, p⟩] = 0 := rfl

theorem LeavesOpen.append_left {ts : List Token} (us : List Token) (h : LeavesOpen ts) :
    LeavesOpen (us ++ ts) := by
  obtain ⟨before, p, after, rfl, hc⟩ := h
  exact ⟨us ++ before, p, after, by simp, hc⟩

/-- Where more are opened than closed, one is left open. -/
theorem leavesOpen_of_lt {ts : List Token} (h : closes ts < opens ts) : LeavesOpen ts := by
  induction hn : ts.length using Nat.strongRecOn generalizing ts with
  | ind n ih =>
    cases ts with
    | nil => cases h
    | cons t ts =>
      by_contra hnot
      -- No tail leaves one open, so each tail closes what it opens.
      have htail : ∀ us vs, ts = us ++ vs → opens vs ≤ closes vs := by
        rintro us vs rfl
        by_contra hlt
        have hshorter : vs.length < n := by
          rw [← hn, List.length_cons, List.length_append]
          omega
        have hopen := ih vs.length hshorter (by omega) rfl
        exact hnot ((hopen.append_left us).append_left [t])
      have hts := htail [] ts rfl
      rw [opens_cons, closes_cons] at h
      have hone : opens [t] ≤ 1 := List.countP_le_length
      have hopen : opens [t] = 1 := by omega
      obtain ⟨kind, p⟩ := t
      obtain rfl : kind = .symbol .parenOpen := by
        simpa [opens, Token.isSymbol] using hopen
      refine hnot ⟨[], p, ts, rfl, ?_⟩
      rintro us ⟨vs, rfl⟩
      have hvs := htail us vs rfl
      simp only [opens_append, closes_append, closes_open] at h
      omega

theorem LeavesOpen.lt {ts : List Token} (h : LeavesOpen ts) (hc : Contained ts) :
    closes ts < opens ts := by
  obtain ⟨before, p, after, rfl, hafter⟩ := h
  have h₁ := hc before (List.prefix_append _ _)
  have h₂ := hafter after (List.prefix_refl _)
  simp only [opens_append, closes_append, opens_cons _ after, closes_cons _ after, opens_open,
    closes_open]
  omega

theorem LeavesOpen.exists_last {ts : List Token} (h : LeavesOpen ts) : ∃ p, LastOpen ts p := by
  induction hn : ts.length using Nat.strongRecOn generalizing ts with
  | ind n ih =>
    obtain ⟨before, p, after, rfl, hc⟩ := h
    by_cases hafter : LeavesOpen after
    · obtain ⟨q, b, a, rfl, hlast⟩ := ih after.length (by simp [← hn]; omega) hafter rfl
      exact ⟨q, before ++ ⟨.symbol .parenOpen, p⟩ :: b, a, by simp, hlast⟩
    · exact ⟨p, before, after, rfl, hc, hafter⟩

/-! ## Tracking -/

/-- The places of the open parentheses behind a token, the innermost first; `none` if the token
needs an open parenthesis and there is none. -/
def track (ps : List Position) (t : Token) : Option (List Position) :=
  if t.isSymbol .parenOpen then some (t.pos :: ps)
  else if t.isSymbol .parenClose then ps.head?.map fun _ => ps.tail
  else if t.isSymbol .comma then ps.head?.map fun _ => ps
  else some ps

/-- The places of the open parentheses behind tokens. -/
def trackAll (ps : List Position) (ts : List Token) : Option (List Position) := ts.foldlM track ps

variable {ps qs : List Position} {t : Token} {ts us : List Token}

@[simp] theorem trackAll_nil (ps : List Position) : trackAll ps [] = some ps := rfl

@[simp] theorem trackAll_cons (ps : List Position) (t : Token) (ts : List Token) :
    trackAll ps (t :: ts) = (track ps t).bind (trackAll · ts) := rfl

@[simp] theorem trackAll_append (ps : List Position) (ts us : List Token) :
    trackAll ps (ts ++ us) = (trackAll ps ts).bind (trackAll · us) := List.foldlM_append

/-- Tracking keeps the difference of the counts. -/
theorem length_of_track (h : track ps t = some qs) :
    qs.length + closes [t] = ps.length + opens [t] := by
  obtain ⟨kind, p⟩ := t
  unfold track at h
  split at h
  next hopen =>
    obtain rfl : kind = .symbol .parenOpen := by simpa [Token.isSymbol] using hopen
    cases h
    rfl
  next hopen =>
    have hzero : opens [⟨kind, p⟩] = 0 := by simp [opens, hopen]
    split at h
    next hclose =>
      have hone : closes [⟨kind, p⟩] = 1 := by simp [closes, hclose]
      cases ps with
      | nil => cases h
      | cons q ps =>
        cases h
        simp [hzero, hone]
    next hclose =>
      have hnone : closes [⟨kind, p⟩] = 0 := by simp [closes, hclose]
      have hsame : qs = ps := by
        split at h
        · cases ps with
          | nil => cases h
          | cons q ps =>
            cases h
            rfl
        · cases h
          rfl
      rw [hsame, hzero, hnone]

theorem length_of_trackAll (h : trackAll ps ts = some qs) :
    qs.length + closes ts = ps.length + opens ts := by
  induction ts generalizing ps with
  | nil =>
    cases h
    rfl
  | cons t ts ih =>
    obtain ⟨qs₁, h₁, h₂⟩ := Option.bind_eq_some_iff.mp h
    have hstep := length_of_track h₁
    have hrest := ih h₂
    rw [opens_cons, closes_cons]
    omega

theorem contained_of_trackAll (h : trackAll [] ts = some qs) : Contained ts := by
  rintro us ⟨vs, rfl⟩
  rw [trackAll_append] at h
  obtain ⟨ps, hus, -⟩ := Option.bind_eq_some_iff.mp h
  have := length_of_trackAll hus
  simp only [List.length_nil] at this
  omega

/-- What is tracked is empty exactly if no parenthesis is left open. -/
theorem leavesOpen_iff (h : trackAll [] ts = some qs) : LeavesOpen ts ↔ qs ≠ [] := by
  have hlen := length_of_trackAll h
  rw [List.length_nil, Nat.zero_add] at hlen
  rw [← List.length_pos_iff]
  constructor
  · intro hopen
    have := hopen.lt (contained_of_trackAll h)
    omega
  · intro hpos
    exact leavesOpen_of_lt (by omega)

theorem track_eq_none : track ps t = none ↔
    ps = [] ∧ (t.kind = .symbol .parenClose ∨ t.kind = .symbol .comma) := by
  obtain ⟨kind, p⟩ := t
  unfold track
  by_cases hopen : kind = .symbol .parenOpen
  · simp [Token.isSymbol, hopen]
  · by_cases hclose : kind = .symbol .parenClose
    · simp [Token.isSymbol, hclose]
    · by_cases hcomma : kind = .symbol .comma
      · simp [Token.isSymbol, hcomma]
      · simp [Token.isSymbol, hopen, hclose, hcomma]

/-- Tracking fails at a token exactly if that is stray. -/
theorem stray_iff (h : trackAll [] ts = some qs) : Stray ts t ↔ track qs t = none := by
  have hlen := length_of_trackAll h
  rw [List.length_nil, Nat.zero_add] at hlen
  have hopen := leavesOpen_iff h
  rw [track_eq_none, Stray, hopen, not_not]
  constructor
  · rintro (⟨hclose, hlt⟩ | ⟨hcomma, rfl⟩)
    · refine ⟨List.eq_nil_of_length_eq_zero ?_, .inl hclose⟩
      have hone : opens [t] = 0 ∧ closes [t] = 1 := by
        simp [opens, closes, Token.isSymbol, hclose]
      rw [opens_append, closes_append] at hlt
      omega
    · exact ⟨rfl, .inr hcomma⟩
  · rintro ⟨rfl, hclose | hcomma⟩
    · refine .inl ⟨hclose, ?_⟩
      have hone : opens [t] = 0 ∧ closes [t] = 1 := by
        simp [opens, closes, Token.isSymbol, hclose]
      rw [opens_append, closes_append]
      simp only [List.length_nil] at hlen
      omega
    · exact .inr ⟨hcomma, rfl⟩

/-- All tokens are in `q` and can be tracked, or there is a first one that is not. -/
theorem trackAll_cases (q : Token → Bool) (ps : List Position) (ts : List Token) :
    ((∀ t ∈ ts, q t = true) ∧ ∃ qs, trackAll ps ts = some qs) ∨
      ∃ before t after qs, ts = before ++ t :: after ∧ (∀ u ∈ before, q u = true) ∧
        trackAll ps before = some qs ∧ (q t = false ∨ track qs t = none) := by
  induction ts generalizing ps with
  | nil => exact .inl ⟨by simp, ps, rfl⟩
  | cons t ts ih =>
    cases hq : q t with
    | false => exact .inr ⟨[], t, ts, ps, rfl, by simp, rfl, .inl hq⟩
    | true =>
      cases ht : track ps t with
      | none => exact .inr ⟨[], t, ts, ps, rfl, by simp, rfl, .inr ht⟩
      | some ps₁ =>
        rcases ih ps₁ with ⟨hall, qs, hqs⟩ | ⟨before, u, after, qs, rfl, hall, hqs, hu⟩
        · exact .inl ⟨List.forall_mem_cons.mpr ⟨hq, hall⟩, qs, by simp [ht, hqs]⟩
        · exact .inr ⟨t :: before, u, after, qs, rfl, List.forall_mem_cons.mpr ⟨hq, hall⟩,
            by simp [ht, hqs], hu⟩

/-- Tokens can be tracked exactly if none of them is stray. -/
theorem exists_trackAll_iff : (∃ qs, trackAll [] ts = some qs) ↔ ¬ HasStray ts := by
  constructor
  · rintro ⟨qs, h⟩ ⟨before, t, after, rfl, hstray⟩
    rw [trackAll_append] at h
    obtain ⟨ps, hbefore, h⟩ := Option.bind_eq_some_iff.mp h
    obtain ⟨ps₁, ht, -⟩ := Option.bind_eq_some_iff.mp h
    rw [(stray_iff hbefore).mp hstray] at ht
    cases ht
  · intro h
    rcases trackAll_cases (fun _ => true) [] ts with ⟨-, hqs⟩ |
      ⟨before, t, after, qs, rfl, -, hqs, ht⟩
    · exact hqs
    · have hnone : track qs t = none := ht.resolve_left (by simp)
      exact absurd ⟨before, t, after, rfl, (stray_iff hqs).mpr hnone⟩ h

/-- Contained tokens do not touch the parentheses that were open before them. -/
theorem exists_append_of_trackAll (hc : ∀ us, us <+: ts → closes us ≤ ps.length + opens us)
    {base : List Position} (h : trackAll (ps ++ base) ts = some qs) :
    ∃ ps', qs = ps' ++ base ∧ ps'.length + closes ts = ps.length + opens ts := by
  have hlen := length_of_trackAll h
  suffices hsuffix : ∃ ps', qs = ps' ++ base by
    obtain ⟨ps', rfl⟩ := hsuffix
    simp only [List.length_append] at hlen
    exact ⟨ps', rfl, by omega⟩
  clear hlen
  induction ts generalizing ps with
  | nil =>
    cases h
    exact ⟨ps, rfl⟩
  | cons t ts ih =>
    obtain ⟨qs₁, h₁, h₂⟩ := Option.bind_eq_some_iff.mp h
    have hrest : ∀ {ps₁ : List Position}, ps₁.length + closes [t] = ps.length + opens [t] →
        ∀ us, us <+: ts → closes us ≤ ps₁.length + opens us := by
      intro ps₁ hlen us hus
      have := hc (t :: us) (List.cons_prefix_cons.mpr ⟨rfl, hus⟩)
      rw [opens_cons, closes_cons] at this
      omega
    suffices hstep : ∃ ps₁, qs₁ = ps₁ ++ base by
      obtain ⟨ps₁, rfl⟩ := hstep
      have hlen := length_of_track h₁
      simp only [List.length_append] at hlen
      exact ih (hrest (by omega)) h₂
    have hfirst := hc [t] (List.cons_prefix_cons.mpr ⟨rfl, List.nil_prefix⟩)
    unfold track at h₁
    split at h₁
    · cases h₁
      exact ⟨t.pos :: ps, rfl⟩
    next hopen =>
      split at h₁
      next hclose =>
        have hone : closes [t] = 1 ∧ opens [t] = 0 := by simp [opens, closes, hopen, hclose]
        cases ps with
        | nil => simp only [List.length_nil] at hfirst; omega
        | cons p ps =>
          cases h₁
          exact ⟨ps, rfl⟩
      next =>
        split at h₁
        · obtain ⟨-, -, rfl⟩ := Option.map_eq_some_iff.mp h₁
          exact ⟨ps, rfl⟩
        · cases h₁
          exact ⟨ps, rfl⟩

/-- The innermost of the parentheses that are tracked is the last one left open. -/
theorem lastOpen_iff {p : Position} (h : trackAll [] ts = some qs) :
    LastOpen ts p ↔ qs.head? = some p := by
  have hhead : ∀ {p : Position}, LastOpen ts p → qs.head? = some p := by
    rintro p ⟨before, after, rfl, hc, hafter⟩
    rw [trackAll_append] at h
    obtain ⟨ps, -, h⟩ := Option.bind_eq_some_iff.mp h
    have hle : opens after ≤ closes after :=
      Nat.le_of_not_lt fun hlt => hafter (leavesOpen_of_lt hlt)
    obtain ⟨ps', rfl, hlen⟩ :=
      @exists_append_of_trackAll [] _ _ (by simpa [Contained] using hc) (p :: ps) h
    simp only [List.length_nil] at hlen
    obtain rfl : ps' = [] := List.eq_nil_of_length_eq_zero (by omega)
    rfl
  refine ⟨hhead, fun hp => ?_⟩
  have hopen : LeavesOpen ts := (leavesOpen_iff h).mpr (by rintro rfl; cases hp)
  obtain ⟨q, hq⟩ := hopen.exists_last
  have hsame : some q = some p := (hhead hq).symm.trans hp
  cases hsame
  exact hq

/-! ## The stack of what waits -/

/-- The places of the parentheses on a stack. -/
def opened : List Pending → List Position
  | [] => []
  | .paren p :: stack => p :: opened stack
  | .call _ _ :: stack | .operator _ _ :: stack => opened stack

variable {o : Outline} {stack : List Pending}

theorem closeOperators_cases (stack : List Pending) :
    (∃ items p below, closeOperators stack = some (items, .paren p :: below) ∧
      opened stack = p :: opened below) ∨ closeOperators stack = none ∧ opened stack = [] := by
  induction stack with
  | nil => exact .inr ⟨rfl, rfl⟩
  | cons x stack ih =>
    cases x with
    | paren p => exact .inl ⟨[], p, stack, rfl, rfl⟩
    | call name p => exact ih
    | operator op p =>
      rcases ih with ⟨items, q, below, hclose, hopened⟩ | ⟨hclose, hopened⟩
      · exact .inl ⟨.operator op p :: items, q, below, by simp [closeOperators, hclose], hopened⟩
      · exact .inr ⟨by simp [closeOperators, hclose], hopened⟩

@[simp] theorem opened_tighter (op : Operator) (stack : List Pending) :
    opened (tighter op stack).2 = opened stack := by
  induction stack with
  | nil => rfl
  | cons x stack ih =>
    cases x with
    | paren | call => rfl
    | operator top pos =>
      by_cases hle : op.precedence ≤ top.precedence
      · simpa [tighter, hle, opened] using ih
      · simp [tighter, hle]

@[simp] theorem opened_finishCall (stack : List Pending) :
    opened (finishCall stack).2 = opened stack := by
  unfold finishCall
  split <;> rfl

theorem flush_of_opened_nil (h : opened stack = []) : ∃ items, flush stack = .ok items := by
  induction stack with
  | nil => exact ⟨[], rfl⟩
  | cons x stack ih =>
    cases x with
    | paren p => cases h
    | call name p | operator op p =>
      obtain ⟨items, hflush⟩ := ih h
      exact ⟨_, by rw [flush, hflush]; rfl⟩

theorem flush_of_opened_cons {p : Position} (h : opened stack = p :: ps) :
    flush stack = .error ⟨.unclosedParen, some p⟩ := by
  induction stack with
  | nil => cases h
  | cons x stack ih =>
    cases x with
    | paren p =>
      cases h
      rfl
    | call name p | operator op p =>
      rw [flush, ih h]
      rfl

/-- A token of an expression does to the parentheses on the stack what tracking does. -/
theorem place_cases (hin : t.inExpr = true) (stack : List Pending) (rest : List Token) :
    (∃ items stack', place o stack t rest = .ok (items, stack') ∧
      track (opened stack) t = some (opened stack')) ∨
      place o stack t rest = .error ⟨.strayParenClose, some t.pos⟩ ∧
        track (opened stack) t = none := by
  obtain ⟨kind, p⟩ := t
  cases kind with
  | literal value => exact .inl ⟨_, _, rfl, rfl⟩
  | ident name =>
    by_cases hcall : (opensParen rest && o.contains name) = true
    · exact .inl ⟨[], .call name p :: stack, if_pos hcall, rfl⟩
    · exact .inl ⟨[.name name p], stack, if_neg hcall, rfl⟩
  | type | keyword | eof => cases hin
  | symbol s =>
    by_cases hopen : s = .parenOpen
    · subst hopen
      exact .inl ⟨[], .paren p :: stack, rfl, rfl⟩
    by_cases hclose : s = .parenClose
    · subst hclose
      rcases closeOperators_cases stack with ⟨items, q, below, h, hopened⟩ | ⟨h, hopened⟩
      · refine .inl ⟨items ++ (finishCall below).1, (finishCall below).2, ?_, ?_⟩
        · simp only [place, h, List.tail_cons]
        · rw [hopened, opened_finishCall]
          rfl
      · exact .inr ⟨by simp only [place, h], by rw [hopened]; rfl⟩
    by_cases hcomma : s = .comma
    · subst hcomma
      rcases closeOperators_cases stack with ⟨items, q, below, h, hopened⟩ | ⟨h, hopened⟩
      · exact .inl ⟨items, .paren q :: below, by simp only [place, h], by rw [hopened]; rfl⟩
      · exact .inr ⟨by simp only [place, h], by rw [hopened]; rfl⟩
    cases hop : Operator.ofSymbol? s with
    | none => simp [Token.inExpr, Symbol.inExpr, hopen, hclose, hcomma, hop] at hin
    | some op =>
      refine .inl ⟨(tighter op stack).1, .operator op p :: (tighter op stack).2, ?_, ?_⟩
      · simp only [place, hop]
      · simp [track, Token.isSymbol, hopen, hclose, hcomma, opened]

/-- Any other token is refused. -/
theorem place_of_not_inExpr (hin : t.inExpr = false) (stack : List Pending) (rest : List Token) :
    ∃ cause, place o stack t rest = .error ⟨cause, some t.pos⟩ ∧
      cause.kind = .unsupportedExpression := by
  obtain ⟨kind, p⟩ := t
  cases kind with
  | literal | ident => cases hin
  | type | keyword | eof => exact ⟨_, rfl, rfl⟩
  | symbol s =>
    simp only [Token.inExpr, Symbol.inExpr, Bool.or_eq_false_iff, beq_eq_false_iff_ne,
      Option.isSome_eq_false_iff, Option.isNone_iff_eq_none] at hin
    obtain ⟨⟨⟨hopen, hclose⟩, hcomma⟩, hop⟩ := hin
    exact ⟨.unsupportedSymbol s, by simp only [place, hop], rfl⟩

/-! ## Faults -/

/-- Tokens that can be tracked are put into the postfix order. -/
theorem postorder_append (hin : ∀ t ∈ ts, t.inExpr = true)
    (h : trackAll (opened stack) ts = some ps) (us : List Token) :
    ∃ items stack', opened stack' = ps ∧
      postorder o stack (ts ++ us) = (postorder o stack' us).map (items ++ ·) := by
  induction ts generalizing stack with
  | nil =>
    cases h
    refine ⟨[], stack, rfl, ?_⟩
    cases hus : postorder o stack us <;> simp [hus, Except.map]
  | cons t ts ih =>
    obtain ⟨ht, hts⟩ := List.forall_mem_cons.mp hin
    obtain ⟨ps₁, h₁, h₂⟩ := Option.bind_eq_some_iff.mp h
    rcases @place_cases t o ht stack (ts ++ us) with ⟨items, stack₁, hplace, htrack⟩ | ⟨-, hnone⟩
    · have hsame : ps₁ = opened stack₁ := Option.some.inj (h₁.symm.trans htrack)
      subst hsame
      obtain ⟨items', stack', hopened, hrest⟩ := ih hts h₂
      refine ⟨items ++ items', stack', hopened, ?_⟩
      rw [List.cons_append, postorder, hplace]
      simp only [hrest]
      cases postorder o stack' us <;> simp [Except.map]
    · rw [h₁] at hnone
      cases hnone

theorem kind_of_build {stack : List Expr} {items : List Item} {err : ParseError}
    (h : build o stack items = .error err) : err.cause.kind = .ambiguousResolution := by
  induction items generalizing stack with
  | nil => cases h
  | cons item items ih =>
    simp only [build] at h
    split at h
    next => exact ih h
    next err' hreduce =>
      cases h
      cases item with
      | literal => cases hreduce
      | operator =>
        simp only [reduce] at hreduce
        split at hreduce
        · cases hreduce
        · cases hreduce
          rfl
      | name =>
        simp only [reduce] at hreduce
        split at hreduce
        · cases hreduce
        · split at hreduce
          · cases hreduce
            rfl
          · cases hreduce

/-- Once the tokens are in postfix order, no other kind of fault is left. -/
theorem kind_of_parse {items : List Item} (h : postorder o [] ts = .ok items) {err : ParseError}
    (herr : parse o ts = .error err) : err.cause.kind = .ambiguousResolution := by
  simp only [parse, h] at herr
  split at herr
  next hbuild =>
    cases herr
    exact kind_of_build hbuild
  next => cases herr
  next =>
    cases herr
    rfl

theorem parse_of_postorder_error {err : ParseError} (h : postorder o [] ts = .error err) :
    parse o ts = .error err := by
  simp only [parse, h]

/-- Behind tokens that can be tracked, the fault of the next token is reported. -/
theorem parse_of_place_error {before after : List Token} {err : ParseError}
    (hin : ∀ u ∈ before, u.inExpr = true) (h : trackAll [] before = some ps)
    (hplace : ∀ stack, opened stack = ps → place o stack t after = .error err) :
    parse o (before ++ t :: after) = .error err := by
  obtain ⟨items, stack, hopened, heq⟩ := @postorder_append _ _ o [] hin h (t :: after)
  refine parse_of_postorder_error ?_
  rw [heq, postorder, hplace stack hopened]
  rfl

/-- The first stray token is refused, if only tokens of expressions stand before it. -/
def StrayFault (ts : List Token) (err : ParseError) : Prop :=
  ∃ before t after, ts = before ++ t :: after ∧ (∀ u ∈ before, u.inExpr = true) ∧
    ¬ HasStray before ∧ Stray before t ∧ err = ⟨.strayParenClose, some t.pos⟩

/-- The last `(` that is left open is refused, if nothing else is. -/
def OpenFault (ts : List Token) (err : ParseError) : Prop :=
  (∀ t ∈ ts, t.inExpr = true) ∧ ¬ HasStray ts ∧
    ∃ p, LastOpen ts p ∧ err = ⟨.unclosedParen, some p⟩

theorem StrayFault.kind {err : ParseError} (h : StrayFault ts err) :
    err.cause.kind = .unbalancedBracket := by
  obtain ⟨before, t, after, -, -, -, -, rfl⟩ := h
  rfl

theorem OpenFault.kind {err : ParseError} (h : OpenFault ts err) :
    err.cause.kind = .unbalancedBracket := by
  obtain ⟨-, -, p, -, rfl⟩ := h
  rfl

theorem StrayFault.parse {err : ParseError} (h : StrayFault ts err) : parse o ts = .error err := by
  obtain ⟨before, t, after, rfl, hin, hnone, hstray, rfl⟩ := h
  obtain ⟨ps, htrack⟩ := exists_trackAll_iff.mpr hnone
  have hfail : track ps t = none := (stray_iff htrack).mp hstray
  have ht : t.inExpr = true := by
    rcases (track_eq_none.mp hfail).2 with hk | hk <;>
      simp [Token.inExpr, Symbol.inExpr, hk]
  refine parse_of_place_error hin htrack fun stack hopened => ?_
  rcases @place_cases t o ht stack after with ⟨-, stack', -, hsome⟩ | ⟨herr, -⟩
  · rw [hopened, hfail] at hsome
    cases hsome
  · exact herr

theorem OpenFault.parse {err : ParseError} (h : OpenFault ts err) : parse o ts = .error err := by
  obtain ⟨hin, hnone, p, hlast, rfl⟩ := h
  obtain ⟨ps, htrack⟩ := exists_trackAll_iff.mpr hnone
  have hhead := (lastOpen_iff htrack).mp hlast
  obtain ⟨items, stack, hopened, heq⟩ := @postorder_append _ _ o [] hin htrack []
  obtain ⟨ps, rfl⟩ : ∃ ps', ps = p :: ps' := by
    cases ps with
    | nil => cases hhead
    | cons q ps =>
      cases hhead
      exact ⟨ps, rfl⟩
  refine parse_of_postorder_error ?_
  rw [← List.append_nil ts, heq, postorder, flush_of_opened_cons hopened]
  rfl

/-- A token of no expression is refused, if no stray one stands before it. -/
theorem parse_of_not_inExpr {before after : List Token} (hin : ∀ u ∈ before, u.inExpr = true)
    (hnone : ¬ HasStray before) (ht : t.inExpr = false) :
    ∃ cause, parse o (before ++ t :: after) = .error ⟨cause, some t.pos⟩ ∧
      cause.kind = .unsupportedExpression := by
  obtain ⟨ps, htrack⟩ := exists_trackAll_iff.mpr hnone
  obtain ⟨items, stack, hopened, heq⟩ := @postorder_append _ _ o [] hin htrack (t :: after)
  obtain ⟨cause, hplace, hkind⟩ := @place_of_not_inExpr t o ht stack after
  refine ⟨cause, parse_of_postorder_error ?_, hkind⟩
  rw [heq, postorder, hplace]
  rfl

/-- If a fault of parentheses is reported, it is one of the two. -/
theorem fault_of_parse {err : ParseError} (h : parse o ts = .error err)
    (hkind : err.cause.kind = .unbalancedBracket) : StrayFault ts err ∨ OpenFault ts err := by
  rcases trackAll_cases Token.inExpr [] ts with
    ⟨hin, qs, htrack⟩ | ⟨before, t, after, qs, rfl, hin, htrack, ht⟩
  · have hnone := exists_trackAll_iff.mp ⟨qs, htrack⟩
    cases qs with
    | nil =>
      obtain ⟨items, stack, hopened, heq⟩ := @postorder_append _ _ o [] hin htrack []
      obtain ⟨items', hflush⟩ := flush_of_opened_nil hopened
      rw [postorder, hflush, List.append_nil] at heq
      rw [kind_of_parse heq h] at hkind
      cases hkind
    | cons p qs =>
      have hfault : OpenFault ts ⟨.unclosedParen, some p⟩ :=
        ⟨hin, hnone, p, (lastOpen_iff htrack).mpr rfl, rfl⟩
      cases h.symm.trans hfault.parse
      exact .inr hfault
  · have hnone := exists_trackAll_iff.mp ⟨qs, htrack⟩
    cases hin' : t.inExpr with
    | false =>
      obtain ⟨cause, hparse, hcause⟩ := @parse_of_not_inExpr t o before after hin hnone hin'
      cases h.symm.trans hparse
      rw [hcause] at hkind
      cases hkind
    | true =>
      have hfail : track qs t = none := ht.resolve_left (by simp [hin'])
      have hfault : StrayFault (before ++ t :: after) ⟨.strayParenClose, some t.pos⟩ :=
        ⟨before, t, after, rfl, hin, hnone, (stray_iff htrack).mpr hfail, rfl⟩
      cases h.symm.trans hfault.parse
      exact .inl hfault

theorem hasStray_iff : HasStray ts ↔ (∃ us, us <+: ts ∧ opens us < closes us) ∨
    ∃ before p after, ts = before ++ ⟨.symbol .comma, p⟩ :: after ∧ ¬ LeavesOpen before := by
  constructor
  · rintro ⟨before, ⟨kind, p⟩, after, rfl, ⟨hk, hlt⟩ | ⟨hk, hopen⟩⟩
    · exact .inl ⟨_, ⟨after, by simp⟩, hlt⟩
    · cases hk
      exact .inr ⟨before, p, after, rfl, hopen⟩
  · rintro (⟨us, hus, hlt⟩ | ⟨before, p, after, rfl, hopen⟩)
    · by_contra hnone
      obtain ⟨qs, htrack⟩ := exists_trackAll_iff.mpr hnone
      have := contained_of_trackAll htrack us hus
      omega
    · exact ⟨before, _, after, rfl, .inr ⟨rfl, hopen⟩⟩

theorem exists_fault_iff (hin : ∀ t ∈ ts, t.inExpr = true) :
    (∃ err, StrayFault ts err ∨ OpenFault ts err) ↔ HasStray ts ∨ LeavesOpen ts := by
  constructor
  · rintro ⟨err, ⟨before, t, after, rfl, -, -, hstray, -⟩ | ⟨-, -, p, hlast, -⟩⟩
    · exact .inl ⟨before, t, after, rfl, hstray⟩
    · obtain ⟨before, after, heq, hc, -⟩ := hlast
      exact .inr ⟨before, p, after, heq, hc⟩
  · intro h
    by_cases hstray : HasStray ts
    · rcases trackAll_cases Token.inExpr [] ts with
        ⟨-, htrack⟩ | ⟨before, t, after, qs, rfl, hbefore, htrack, ht⟩
      · exact absurd hstray (exists_trackAll_iff.mp htrack)
      · have hfail : track qs t = none := ht.resolve_left (by simp [hin t (by simp)])
        exact ⟨_, .inl ⟨before, t, after, rfl, hbefore, exists_trackAll_iff.mp ⟨qs, htrack⟩,
          (stray_iff htrack).mpr hfail, rfl⟩⟩
    · obtain ⟨p, hlast⟩ := (h.resolve_left hstray).exists_last
      exact ⟨_, .inr ⟨hin, hstray, p, hlast, rfl⟩⟩

/-- A fault of parentheses is reported exactly for the first stray token, or if there is none, for
the last `(` that is left open. If there are only tokens of expressions, this is the case exactly if
there are more `)` than `(` up to some point, or a `,` where no `(` is open, or a `(` that is never
closed. A token of no expression is refused as such, if no stray one stands before it. -/
theorem brackets_exact (o : Outline) (ts : List Token) :
    (∀ err, parse o ts = .error err ∧ err.cause.kind = .unbalancedBracket ↔
      StrayFault ts err ∨ OpenFault ts err) ∧
    ((∀ t ∈ ts, t.inExpr = true) →
      ((∃ err, parse o ts = .error err ∧ err.cause.kind = .unbalancedBracket) ↔
        (∃ us, us <+: ts ∧ opens us < closes us) ∨
        (∃ before p after, ts = before ++ ⟨.symbol .comma, p⟩ :: after ∧ ¬ LeavesOpen before) ∨
        LeavesOpen ts)) ∧
    ∀ before t after, ts = before ++ t :: after → (∀ u ∈ before, u.inExpr = true) →
      ¬ HasStray before → t.inExpr = false →
      ∃ cause, parse o ts = .error ⟨cause, some t.pos⟩ ∧ cause.kind = .unsupportedExpression := by
  have hfault : ∀ err, parse o ts = .error err ∧ err.cause.kind = .unbalancedBracket ↔
      StrayFault ts err ∨ OpenFault ts err := by
    intro err
    constructor
    · rintro ⟨h, hkind⟩
      exact fault_of_parse h hkind
    · rintro (h | h)
      · exact ⟨h.parse, h.kind⟩
      · exact ⟨h.parse, h.kind⟩
  refine ⟨hfault, fun hin => ?_, ?_⟩
  · rw [exists_congr hfault, exists_fault_iff hin, hasStray_iff, or_assoc]
  · rintro before t after rfl hin hnone ht
    exact parse_of_not_inExpr hin hnone ht

/-- The tokens of `f((1,x)`. -/
def unclosedSample : List Token :=
  [⟨.ident "f", column 0⟩, ⟨.symbol .parenOpen, column 1⟩, ⟨.symbol .parenOpen, column 2⟩,
   ⟨.literal (.int 1), column 3⟩, ⟨.symbol .comma, column 4⟩, ⟨.ident "x", column 5⟩,
   ⟨.symbol .parenClose, column 6⟩]

/-- The tokens of `(1;))`. -/
def foreignSample : List Token :=
  [⟨.symbol .parenOpen, column 0⟩, ⟨.literal (.int 1), column 1⟩, ⟨.symbol .semicolon, column 2⟩,
   ⟨.symbol .parenClose, column 3⟩, ⟨.symbol .parenClose, column 4⟩]

theorem brackets_exact_samples :
    parse sampleOutline unclosedSample = .error ⟨.unclosedParen, some (column 1)⟩ ∧
    ((∃ us, us <+: unclosedSample ∧ opens us < closes us) ∨
      (∃ before p after, unclosedSample = before ++ ⟨.symbol .comma, p⟩ :: after ∧
        ¬ LeavesOpen before) ∨ LeavesOpen unclosedSample) ∧
    ∃ cause, parse sampleOutline foreignSample = .error ⟨cause, some (column 2)⟩ ∧
      cause.kind = .unsupportedExpression := by
  have h : parse sampleOutline unclosedSample = .error ⟨.unclosedParen, some (column 1)⟩ := rfl
  refine ⟨h, ((brackets_exact _ _).2.1 (by decide)).mp ⟨_, h, rfl⟩, ?_⟩
  exact (brackets_exact _ _).2.2 _ _ _ (show foreignSample = foreignSample.take 2 ++ _ from rfl)
    (by decide) (exists_trackAll_iff.mp ⟨_, rfl⟩) rfl

end ProcLang.Expr

import ProcLang.Proofs.Parsing.Declarations
import ProcLang.Proofs.Scope

/-!
# The bounds of functions

A scan notes where functions start and stop by their indices. Counting braces shows that these are
the right ones: a function starts at a name with a `::` behind it, its body at the first `{` from
there on, and it stops where that `{` is closed. Functions do not overlap, and each `::` and each
brace belongs to one.

## Main definitions

* `slice` — what stands between two indices.
* `braceSurplus` — how many more braces are opened than closed.
* `Outline.Entry.Exact`, `Outline.Exact` — entries with the right bounds.

## Main statements

* `Outline.bounds_of_scan` — a scan finds the right bounds.
-/
namespace ProcLang

/-! ## Slices -/

/-- What stands from index `i` up to index `j`, the latter not included. -/
def slice {α : Type} (l : List α) (i j : Nat) : List α := (l.take j).drop i

theorem slice_append_left {α : Type} (front l : List α) (i j : Nat) :
    slice (front ++ l) (front.length + i) (front.length + j) = slice l i j := by
  rw [slice, List.take_length_add_append, List.drop_length_add_append, slice]

theorem slice_append_right {α : Type} {l : List α} (back : List α) {i j : Nat}
    (h : j ≤ l.length) : slice (l ++ back) i j = slice l i j := by
  rw [slice, List.take_append_of_le_length h, slice]

/-- How many more braces the tokens open than they close. -/
def braceSurplus (ts : List Token) : Int :=
  ts.countP (·.isSymbol .braceOpen) - ts.countP (·.isSymbol .braceClose)

theorem braceSurplus_append (ts us : List Token) :
    braceSurplus (ts ++ us) = braceSurplus ts + braceSurplus us := by
  simp only [braceSurplus, List.countP_append, Int.natCast_add]
  omega

theorem braceSurplus_cons (t : Token) (ts : List Token) :
    braceSurplus (t :: ts) = braceSurplus [t] + braceSurplus ts := braceSurplus_append [t] ts

/-- The depth behind tokens is what it was before, and the surplus of the tokens. -/
theorem braceSurplus_of_braceDepth {depth depth' : Nat} {ts : List Token}
    (h : braceDepth depth ts = some depth') : (depth' : Int) = depth + braceSurplus ts := by
  induction ts generalizing depth with
  | nil =>
    cases h
    simp [braceSurplus]
  | cons t ts ih =>
    rw [braceSurplus_cons]
    cases hclose : t.isSymbol .braceClose with
    | true =>
      have hopen : t.isSymbol .braceOpen = false := by
        have hkind : t.kind = .symbol .braceClose := by simpa [Token.isSymbol] using hclose
        simp [Token.isSymbol, hkind]
      have hone : braceSurplus [t] = -1 := by simp [braceSurplus, hclose, hopen]
      cases depth with
      | zero => simp [braceDepth, hclose] at h
      | succ depth =>
        simp only [braceDepth, hclose, if_true] at h
        have := ih h
        omega
    | false =>
      simp only [braceDepth, hclose, Bool.false_eq_true, if_false] at h
      have := ih h
      cases hopen : t.isSymbol .braceOpen with
      | true =>
        have hone : braceSurplus [t] = 1 := by simp [braceSurplus, hclose, hopen]
        simp only [hopen, if_true] at this
        omega
      | false =>
        have hone : braceSurplus [t] = 0 := by simp [braceSurplus, hclose, hopen]
        simp only [hopen, Bool.false_eq_true, if_false] at this
        omega

/-- Inside of a body no more braces are closed than opened. -/
theorem braceSurplus_take_nonneg {body : List Token} {depth : Nat}
    (h : braceDepth 0 body = some depth) (n : Nat) : 0 ≤ braceSurplus (body.take n) := by
  rw [← List.take_append_drop n body, braceDepth_append] at h
  obtain ⟨depth', hfront, -⟩ := Option.bind_eq_some_iff.mp h
  have := braceSurplus_of_braceDepth hfront
  omega

namespace Outline

/-! ## Entries -/

/-- An index is that of a token of the function. -/
def Entry.Spans (e : Entry) (i : Nat) : Prop := e.start ≤ i ∧ i ≤ e.stop

/-- The bounds and the number of parameters of an entry are right, and `opening` is the index of the
`{` of its body. -/
structure Entry.Exact (ts : List Token) (e : Entry) (opening : Nat) : Prop where
  name : ∃ p, ts[e.start]? = some ⟨.ident e.name, p⟩
  colons : ∃ p, ts[e.start + 1]? = some ⟨.symbol .doubleColon, p⟩
  behind_colons : e.start + 1 < opening
  opens : ∃ p, ts[opening]? = some ⟨.symbol .braceOpen, p⟩
  first : ∀ i t, e.start < i → i < opening → ts[i]? = some t → t.kind ≠ .symbol .braceOpen
  before_stop : opening < e.stop
  inside : ∀ i, opening < i → i ≤ e.stop → 0 < braceSurplus (slice ts opening i)
  closes : ∃ p, ts[e.stop]? = some ⟨.symbol .braceClose, p⟩
  closed : braceSurplus (slice ts opening (e.stop + 1)) = 0
  arity : e.arity = Header.arity (slice ts (e.start + 2) opening)

namespace Section

variable (s : Section)

/-- The tokens of a function up to its body. -/
def front : List Token :=
  ⟨.ident s.name, s.pos⟩ :: ⟨.symbol .doubleColon, s.colons⟩ :: s.header

theorem tokens_eq : s.tokens = s.front ++ (⟨.symbol .braceOpen, s.opening⟩ ::
    (s.body ++ [⟨.symbol .braceClose, s.closing⟩])) := rfl

theorem length_front : s.front.length = s.header.length + 2 := rfl

theorem length_tokens : s.tokens.length = s.front.length + s.body.length + 2 := by
  rw [tokens_eq]
  simp only [List.length_append, List.length_cons, List.length_nil]
  omega

theorem not_open_of_mem_front {t : Token} (h : t ∈ s.front) : t.kind ≠ .symbol .braceOpen := by
  rcases List.mem_cons.mp h with rfl | h
  · simp
  rcases List.mem_cons.mp h with rfl | h
  · simp
  · exact (isInert_iff.mp (s.inert_header t h)).2.1

/-- The tokens of a body up to some index, from its `{` on. -/
theorem slice_body {n : Nat} (hn : n ≤ s.body.length) :
    slice s.tokens s.front.length (s.front.length + (n + 1)) =
      ⟨.symbol .braceOpen, s.opening⟩ :: s.body.take n := by
  have h := slice_append_left s.front (⟨.symbol .braceOpen, s.opening⟩ ::
    (s.body ++ [⟨.symbol .braceClose, s.closing⟩])) 0 (n + 1)
  rw [← tokens_eq, Nat.add_zero] at h
  rw [h, slice, List.drop_zero, List.take_succ_cons, List.take_append_of_le_length hn]

/-- All tokens of a body with its braces. -/
theorem slice_block : slice s.tokens s.front.length s.tokens.length =
    ⟨.symbol .braceOpen, s.opening⟩ :: (s.body ++ [⟨.symbol .braceClose, s.closing⟩]) := by
  rw [slice, List.take_length, tokens_eq, List.drop_left]

theorem braceSurplus_body : braceSurplus s.body = 0 := by
  have := braceSurplus_of_braceDepth s.balanced_body
  omega

/-- What a scan notes of a function is right, whatever stands around it. -/
theorem exact_entry (before after : List Token) :
    (s.entry before.length).Exact (before ++ (s.tokens ++ after))
      (before.length + s.front.length) := by
  have hlen := s.length_tokens
  have hfront := s.length_front
  have hget : ∀ i, i < s.tokens.length →
      (before ++ (s.tokens ++ after))[before.length + i]? = s.tokens[i]? := by
    intro i hi
    rw [List.getElem?_append_right (by omega), Nat.add_sub_cancel_left,
      List.getElem?_append_left hi]
  have hslice : ∀ i j, j ≤ s.tokens.length →
      slice (before ++ (s.tokens ++ after)) (before.length + i) (before.length + j) =
        slice s.tokens i j := by
    intro i j hj
    rw [slice_append_left, slice_append_right after hj]
  have hstop : (s.entry before.length).stop =
      before.length + (s.front.length + s.body.length + 1) := by
    simp only [entry]
    omega
  have hopen : braceSurplus [⟨.symbol .braceOpen, s.opening⟩] = 1 := rfl
  constructor
  case name => exact ⟨s.pos, hget 0 (by omega)⟩
  case colons => exact ⟨s.colons, hget 1 (by omega)⟩
  case behind_colons =>
    change before.length + 1 < _
    omega
  case opens =>
    refine ⟨s.opening, (hget _ (by omega)).trans ?_⟩
    rw [tokens_eq, List.getElem?_append_right (Nat.le_refl _), Nat.sub_self]
    rfl
  case first =>
    intro i t hlow hhigh ht
    obtain ⟨k, rfl⟩ := Nat.exists_eq_add_of_le (Nat.le_of_lt hlow)
    change (before ++ (s.tokens ++ after))[before.length + k]? = some t at ht
    have hk : k < s.front.length := Nat.lt_of_add_lt_add_left hhigh
    rw [hget k (by omega), tokens_eq, List.getElem?_append_left hk] at ht
    exact s.not_open_of_mem_front (List.mem_of_getElem? ht)
  case before_stop => omega
  case inside =>
    intro i hlow hhigh
    obtain ⟨n, rfl⟩ : ∃ n, i = before.length + (s.front.length + (n + 1)) :=
      ⟨i - before.length - s.front.length - 1, by omega⟩
    rw [hslice _ _ (by omega), s.slice_body (by omega), braceSurplus_cons, hopen]
    have := braceSurplus_take_nonneg s.balanced_body n
    omega
  case closes =>
    refine ⟨s.closing, ?_⟩
    rw [hstop, hget _ (by omega), tokens_eq, List.getElem?_append_right (by omega),
      show s.front.length + s.body.length + 1 - s.front.length = s.body.length + 1 by omega,
      List.getElem?_cons_succ, List.getElem?_concat_length]
  case closed =>
    have hclose : braceSurplus [⟨.symbol .braceClose, s.closing⟩] = -1 := rfl
    rw [hstop, show before.length + (s.front.length + s.body.length + 1) + 1 =
        before.length + s.tokens.length by omega, hslice _ _ (Nat.le_refl _), slice_block,
      braceSurplus_cons, braceSurplus_append, hopen, hclose, s.braceSurplus_body]
    rfl
  case arity =>
    change Header.arity s.header = Header.arity (slice _ (before.length + 2) _)
    rw [hslice _ _ (by omega), slice, tokens_eq, List.take_left]
    rfl

end Section

/-! ## Sections in a list of tokens -/

namespace Sections

variable {P : Token → Prop} {base : Nat} {before ts : List Token} {ss : List (Nat × Section)}

theorem exact_entries (h : Sections P base ts ss) (hb : before.length = base) :
    ∀ x ∈ ss, ∃ opening, (x.2.entry x.1).Exact (before ++ ts) opening := by
  induction h generalizing before with
  | nil => simp
  | @cons base gap rest ss hg s _ ih =>
    have hcut : before ++ (gap ++ (s.tokens ++ rest)) = (before ++ gap) ++ (s.tokens ++ rest) := by
      simp
    have hlen : base + gap.length = (before ++ gap).length := by simp [hb]
    refine List.forall_mem_cons.mpr ⟨?_, ?_⟩
    · rw [hcut, hlen]
      exact ⟨_, s.exact_entry _ _⟩
    · rw [hcut, ← List.append_assoc]
      exact ih (by simp [hb, Nat.add_assoc])

theorem start_le_stop (s : Section) (start : Nat) :
    (s.entry start).start ≤ (s.entry start).stop := by
  have := s.length_tokens
  simp only [Section.entry]
  omega

/-- Functions start behind everything that was read before them, and stop before others start. -/
theorem ordered (h : Sections P base ts ss) : (∀ e ∈ entriesOf ss, base ≤ e.start) ∧
    (entriesOf ss).Pairwise fun e e' => e.stop < e'.start := by
  induction h with
  | nil => exact ⟨by simp [entriesOf], .nil⟩
  | @cons base gap rest ss hg s _ ih =>
    have hlen := s.length_tokens
    obtain ⟨hbase, hpair⟩ := ih
    refine ⟨List.forall_mem_cons.mpr ⟨Nat.le_add_right _ _, fun e he => ?_⟩,
      List.pairwise_cons.mpr ⟨fun e he => ?_, hpair⟩⟩
    · have := hbase e he
      omega
    · have := hbase e he
      simp only [Section.entry]
      omega

end Sections

/-- A token that is in no function is in a gap between functions. -/
theorem mem_gaps {ts : List Token} {i : Nat} {t : Token} (ht : ts[i]? = some t) {es : List Entry}
    {start : Nat} (hi : start ≤ i) (hout : ∀ e ∈ es, ¬ e.Spans i) : t ∈ gaps ts start es := by
  induction es generalizing start with
  | nil =>
    refine List.mem_iff_getElem?.mpr ⟨i - start, ?_⟩
    rw [gaps, List.getElem?_drop, Nat.add_sub_cancel' hi, ht]
  | cons e es ih =>
    obtain ⟨he, hes⟩ := List.forall_mem_cons.mp hout
    by_cases hlt : i < e.start
    · refine List.mem_append_left _ (List.mem_iff_getElem?.mpr ⟨i - start, ?_⟩)
      rw [List.getElem?_drop, Nat.add_sub_cancel' hi, List.getElem?_take_of_lt hlt, ht]
    · have hle : e.stop + 1 ≤ i := by
        unfold Entry.Spans at he
        omega
      exact List.mem_append_right _ (ih hle hes)

/-! ## Outlines -/

/-- Functions have different names, by which they are found. Their bounds are right and do not
overlap, and each `::` and each brace belongs to one of them. -/
structure Exact (ts : List Token) (o : Outline) : Prop where
  names : (o.entries.map (·.name)).Nodup
  found : ∀ e ∈ o.entries, o.get? e.name = some e
  entries : ∀ e ∈ o.entries, ∃ opening, e.Exact ts opening
  ordered : o.entries.Pairwise fun e e' => e.stop < e'.start
  marks : ∀ i t, ts[i]? = some t → (t.kind = .symbol .doubleColon ∨ t.kind = .symbol .braceOpen ∨
    t.kind = .symbol .braceClose) → ∃! e, e ∈ o.entries ∧ e.Spans i

theorem eq_of_spans {es : List Entry} (h : es.Pairwise fun e e' => e.stop < e'.start) {e e' : Entry}
    (he : e ∈ es) (he' : e' ∈ es) {i : Nat} (hi : e.Spans i) (hi' : e'.Spans i) : e = e' := by
  unfold Entry.Spans at hi hi'
  induction h with
  | nil => cases he
  | @cons a es ha _ ih =>
    rcases List.mem_cons.mp he with rfl | hmem
    · rcases List.mem_cons.mp he' with rfl | hmem'
      · rfl
      · have := ha e' hmem'
        omega
    · rcases List.mem_cons.mp he' with rfl | hmem'
      · have := ha e hmem
        omega
      · exact ih hmem hmem'

theorem Sections.exact {ts : List Token} {ss : List (Nat × Section)}
    (h : Sections (isInert · = true) 0 ts ss) (hn : ((entriesOf ss).map (·.name)).Nodup) :
    Exact ts ⟨entriesOf ss⟩ where
  names := hn
  found e he := find?_name hn he
  entries e he := by
    obtain ⟨x, hx, rfl⟩ := List.mem_map.mp he
    exact @exact_entries _ _ [] _ _ h rfl x hx
  ordered := h.ordered.2
  marks i t ht hkind := by
    have hinert : ¬ isInert t = true := by
      rw [isInert_iff]
      rintro ⟨h₁, h₂, h₃⟩
      rcases hkind with hk | hk | hk
      · exact h₁ hk
      · exact h₂ hk
      · exact h₃ hk
    by_cases hout : ∀ e ∈ entriesOf ss, ¬ e.Spans i
    · have hmem := mem_gaps ht (Nat.zero_le i) hout
      exact absurd (@forall_mem_gaps _ _ [] _ _ h rfl t hmem) hinert
    · push Not at hout
      obtain ⟨e, he, hi⟩ := hout
      exact ⟨e, ⟨he, hi⟩, fun e' he' => eq_of_spans h.ordered.2 he'.1 he he'.2 hi⟩

/-- The function that is declared from an entry. -/
structure Entry.Declares (ts : List Token) (o : Outline) (e : Entry) (d : Declaration) : Prop where
  name : d.name = e.name
  arity : d.params.length = e.arity
  pos : d.pos = ts[e.start]?.map Token.pos
  parse : Declaration.parse o e.name (e.tokens ts) = .ok d

theorem Entry.head?_tokens {e : Entry} (h : e.start ≤ e.stop) (ts : List Token) :
    (e.tokens ts).head? = ts[e.start]? := by
  rw [Entry.tokens, List.head?_drop, List.getElem?_take_of_lt (by omega)]

theorem Sections.declares {ts : List Token} {ss : List (Nat × Section)} {p : Program}
    (h : Sections (isInert · = true) 0 ts ss)
    (hall : List.Forall₂ (fun x d => x.2.Declares ⟨entriesOf ss⟩ d) ss p) :
    List.Forall₂ (Entry.Declares ts ⟨entriesOf ss⟩) (entriesOf ss) p := by
  have htokens : ∀ x ∈ ss, (x.2.entry x.1).tokens ts = x.2.tokens :=
    @tokens_entry _ _ [] _ _ h rfl
  refine List.forall₂_map_left_iff.mpr
    (((List.forall₂_and_left _ _).mpr ⟨htokens, hall⟩).imp fun x d hx => ?_)
  obtain ⟨hx, hd⟩ := hx
  constructor
  case name => exact hd.name
  case arity =>
    have harity := Header.arity_of_renders hd.header
    rw [Header.arity_filter] at harity
    exact harity.symm
  case pos =>
    rw [← Entry.head?_tokens (start_le_stop x.2 x.1), hx, hd.pos]
    rfl
  case parse =>
    rw [hx]
    exact Section.parse_eq_ok.mpr hd

/-- A scan finds the bounds of functions. If the program can be read, then only breaks and the end
of the text are outside of them, and what is read is one function for each of them, in order. -/
theorem bounds_of_scan {ts : List Token} {o : Outline} (h : scan ts = .ok o) :
    o.Exact ts ∧ ∀ p, Program.parse ts = .ok p →
      (∀ i t, ts[i]? = some t → (∀ e ∈ o.entries, ¬ e.Spans i) →
        t.isBreak = true ∨ t.isEof = true) ∧
      List.Forall₂ (Entry.Declares ts o) o.entries p := by
  obtain ⟨ss, hss, ho, hn⟩ := scan_eq_ok.mp h
  obtain ⟨entries⟩ := o
  subst ho
  refine ⟨hss.exact hn, fun p hp => ?_⟩
  obtain ⟨ss', hss', hn', hout, hall⟩ := Program.parse_eq_ok.mp hp
  have hscan : scan ts = .ok ⟨entriesOf ss'⟩ := scan_eq_ok.mpr ⟨ss', hss', rfl, hn'⟩
  have hsame : entriesOf ss = entriesOf ss' := by
    simpa using h.symm.trans hscan
  rw [hsame]
  exact ⟨fun i t ht hi => hout t (mem_gaps ht (Nat.zero_le i) hi), hss'.declares hall⟩

/-- Two functions with a break before, between and behind them, and a block in the first body. -/
def boundarySample : List Token :=
  [.symbol .semicolon, .ident "f", .symbol .doubleColon, .type .i32, .ident "a", .symbol .arrow,
   .type .i32, .symbol .braceOpen, .keyword .if, .ident "a", .symbol .braceOpen,
   .symbol .braceClose, .symbol .braceClose, .symbol .lineBreak, .ident "g", .symbol .doubleColon,
   .symbol .braceOpen, .symbol .braceClose, .symbol .lineBreak, .eof].map (⟨·, default⟩)

theorem bounds_boundarySample : ∃ o p, scan boundarySample = .ok o ∧
    Program.parse boundarySample = .ok p ∧ o.entries = [⟨"f", 1, 12, 1⟩, ⟨"g", 14, 17, 0⟩] ∧
    o.Exact boundarySample ∧
    (∀ i t, boundarySample[i]? = some t → (∀ e ∈ o.entries, ¬ e.Spans i) →
      t.isBreak = true ∨ t.isEof = true) ∧
    List.Forall₂ (Entry.Declares boundarySample o) o.entries p := by
  have hscan : scan boundarySample = .ok ⟨[⟨"f", 1, 12, 1⟩, ⟨"g", 14, 17, 0⟩]⟩ := rfl
  have hread : (Program.parse boundarySample).toOption.isSome = true := by decide +kernel
  obtain ⟨hexact, hparse⟩ := bounds_of_scan hscan
  cases hp : Program.parse boundarySample with
  | error e => simp [hp, Except.toOption] at hread
  | ok p => exact ⟨_, p, hscan, rfl, rfl, hexact, hparse p hp⟩

end Outline
end ProcLang

import ProcLang.Proofs.Parsing.Header
import ProcLang.Proofs.Source.Linked
import ProcLang.Stmt.Parser

/-!
# Functions in a list of tokens

A scan cuts a list of tokens into functions and what stands between them. A function is a name, a
`::`, a header, and a body in braces; the braces inside of the body match each other.

## Main definitions

* `braceDepth` — how many braces are open behind a list of tokens.
* `Outline.Section` — the tokens of a function in parts.
* `Outline.Sections` — a list of tokens cut into functions.

## Main statements

* `Outline.scan_eq_ok` — a scan finds the functions that the tokens are cut into, and succeeds if
  their names are different.
-/
namespace ProcLang

/-! ## Braces -/

/-- How many braces are open behind the tokens if `depth` are open before them; `none` if one is
closed that is not open. -/
def braceDepth (depth : Nat) : List Token → Option Nat
  | [] => some depth
  | t :: ts =>
    if t.isSymbol .braceClose then
      match depth with
      | 0 => none
      | depth + 1 => braceDepth depth ts
    else braceDepth (if t.isSymbol .braceOpen then depth + 1 else depth) ts

theorem braceDepth_append (depth : Nat) (ts us : List Token) :
    braceDepth depth (ts ++ us) = (braceDepth depth ts).bind (braceDepth · us) := by
  induction ts generalizing depth with
  | nil => rfl
  | cons t ts ih =>
    cases depth with
    | zero => cases ht : t.isSymbol .braceClose <;> simp [braceDepth, ht, ih]
    | succ depth => cases ht : t.isSymbol .braceClose <;> simp [braceDepth, ht, ih]

theorem exists_of_splitBlock {depth : Nat} {ts body rest : List Token}
    (h : splitBlock depth ts = some (body, rest)) : ∃ t, ts = body ++ t :: rest := by
  induction ts generalizing depth body with
  | nil => cases h
  | cons t ts ih =>
    have hinner : ∀ {depth : Nat}, (splitBlock depth ts).map (fun x => (t :: x.1, x.2)) =
        some (body, rest) → ∃ u, t :: ts = body ++ u :: rest := by
      intro depth' hmap
      obtain ⟨⟨inner, left⟩, hsplit, heq⟩ := Option.map_eq_some_iff.mp hmap
      cases heq
      obtain ⟨u, rfl⟩ := ih hsplit
      exact ⟨u, rfl⟩
    unfold splitBlock at h
    split at h
    · cases depth with
      | zero =>
        cases h
        exact ⟨t, rfl⟩
      | succ depth => exact hinner h
    · exact hinner h

/-- A block is split off behind the brace that matches the one before it. -/
theorem splitBlock_of_braceDepth {depth : Nat} {body : List Token}
    (h : braceDepth depth body = some 0) {t : Token} (ht : t.isSymbol .braceClose = true)
    (rest : List Token) : splitBlock depth (body ++ t :: rest) = some (body, rest) := by
  induction body generalizing depth with
  | nil =>
    cases h
    simp [splitBlock, ht]
  | cons u body ih =>
    cases hu : u.isSymbol .braceClose with
    | true =>
      cases depth with
      | zero => simp [braceDepth, hu] at h
      | succ depth =>
        simp only [braceDepth, hu, if_true] at h
        simp [splitBlock, hu, ih h]
    | false =>
      simp only [braceDepth, hu, Bool.false_eq_true, if_false] at h
      simp [splitBlock, hu, ih h]

namespace Outline

/-! ## Sections -/

/-- A token that a scan passes over outside of functions and in headers. -/
def isInert (t : Token) : Bool :=
  !(t.isSymbol .doubleColon || t.isSymbol .braceOpen || t.isSymbol .braceClose)

/-- The tokens of a function in parts. -/
structure Section where
  name : String
  pos : Position
  colons : Position
  header : List Token
  opening : Position
  body : List Token
  closing : Position
  inert_header : ∀ t ∈ header, isInert t = true
  balanced_body : braceDepth 0 body = some 0

namespace Section

/-- The tokens of a function from its `::` on. -/
def behindName (s : Section) : List Token :=
  ⟨.symbol .doubleColon, s.colons⟩ :: (s.header ++ ⟨.symbol .braceOpen, s.opening⟩ ::
    (s.body ++ [⟨.symbol .braceClose, s.closing⟩]))

/-- The tokens of a function. -/
def tokens (s : Section) : List Token := ⟨.ident s.name, s.pos⟩ :: s.behindName

/-- What a scan notes of a function whose name has the index `start`. -/
def entry (s : Section) (start : Nat) : Entry :=
  ⟨s.name, start, start + s.tokens.length - 1, Header.arity s.header⟩

end Section

/-- Tokens from index `base` on that are cut into functions, each with the index of its name, and
tokens between them of which `P` holds. -/
inductive Sections (P : Token → Prop) : Nat → List Token → List (Nat × Section) → Prop where
  | nil {base : Nat} {gap : List Token} (hg : ∀ t ∈ gap, P t) : Sections P base gap []
  | cons {base : Nat} {gap rest : List Token} {ss : List (Nat × Section)} (hg : ∀ t ∈ gap, P t)
      (s : Section) (hrest : Sections P (base + gap.length + s.tokens.length) rest ss) :
      Sections P base (gap ++ (s.tokens ++ rest)) ((base + gap.length, s) :: ss)

/-- What a scan notes of functions. -/
def entriesOf (ss : List (Nat × Section)) : List Entry := ss.map fun (start, s) => s.entry start

theorem Sections.mono {P Q : Token → Prop} (hPQ : ∀ t, P t → Q t) {base : Nat} {ts : List Token}
    {ss : List (Nat × Section)} (h : Sections P base ts ss) : Sections Q base ts ss := by
  induction h with
  | nil hg => exact .nil fun t ht => hPQ t (hg t ht)
  | cons hg s _ ih => exact .cons (fun t ht => hPQ t (hg t ht)) s ih

/-! ## Steps of a scan -/

theorem isInert_iff {t : Token} : isInert t = true ↔ t.kind ≠ .symbol .doubleColon ∧
    t.kind ≠ .symbol .braceOpen ∧ t.kind ≠ .symbol .braceClose := by
  simp [isInert, Token.isSymbol, and_assoc]

theorem contains_iff {o : Outline} {name : String} :
    o.contains name = true ↔ name ∈ o.entries.map (·.name) := by
  simp [contains, get?]

theorem insert_eq_ok {o o' : Outline} {e : Entry} :
    o.insert e = .ok o' ↔ e.name ∉ o.entries.map (·.name) ∧ o' = ⟨o.entries ++ [e]⟩ := by
  unfold insert
  rw [← contains_iff]
  cases o.contains e.name <;> simp [eq_comm]

namespace Scan

variable {s : Scan} {t : Token} {mode : Mode} {o : Outline} {f : Opening}

theorem step_eq_ok {s' : Scan} : s.step t = .ok s' ↔
    ∃ mode o, s.next t = .ok (mode, o) ∧ s' = ⟨s.index + 1, some t, mode, o⟩ := by
  unfold step
  cases s.next t with
  | error e => simp
  | ok r => simp [Prod.ext_iff, eq_comm]

theorem run_cons_eq_ok {s' : Scan} {ts : List Token} : s.run (t :: ts) = .ok s' ↔
    ∃ s₁, s.step t = .ok s₁ ∧ s₁.run ts = .ok s' := by
  rw [run]
  cases s.step t <;> simp

theorem finish_eq_ok : s.finish = .ok o ↔ s.mode = .outside ∧ s.outline = o := by
  unfold finish
  split <;> simp_all

theorem next_outside (hm : s.mode = .outside) (h : s.next t = .ok (mode, o)) : o = s.outline ∧
    (isInert t = true ∧ mode = .outside ∨
      t.kind = .symbol .doubleColon ∧ ∃ name p, s.previous = some ⟨.ident name, p⟩ ∧
        mode = .header ⟨name, s.index - 1, p, 0⟩ false) := by
  simp only [next, hm] at h
  split at h
  next hk =>
    split at h
    next name p hp =>
      cases h
      exact ⟨rfl, .inr ⟨hk, name, p, hp, rfl⟩⟩
    next => cases h
  next => cases h
  next => cases h
  next h₁ h₂ h₃ =>
    cases h
    exact ⟨rfl, .inl ⟨isInert_iff.mpr ⟨h₁, h₂, h₃⟩, rfl⟩⟩

theorem next_header {returns : Bool} (hm : s.mode = .header f returns)
    (h : s.next t = .ok (mode, o)) : o = s.outline ∧
    (isInert t = true ∧ mode = .header
        { f with arity := f.arity + if !returns && Header.isType t then 1 else 0 }
        (returns || t.isSymbol .arrow) ∨
      t.kind = .symbol .braceOpen ∧ mode = .body f 0) := by
  simp only [next, hm] at h
  split at h
  next => cases h
  next hk =>
    cases h
    refine ⟨rfl, .inl ⟨by simp [isInert_iff, hk], ?_⟩⟩
    simp [Header.isType, Token.isSymbol, hk]
  next hk =>
    cases h
    exact ⟨rfl, .inr ⟨hk, rfl⟩⟩
  next => cases h
  next ty hk =>
    cases h
    refine ⟨rfl, .inl ⟨by simp [isInert_iff, hk], ?_⟩⟩
    cases returns <;> simp [Header.isType, Token.isSymbol, hk]
  next h₁ h₂ h₃ h₄ h₅ =>
    cases h
    have htype : Header.isType t = false := by
      unfold Header.isType
      split
      next ty hk => exact absurd hk (h₅ ty)
      next => rfl
    have harrow : t.isSymbol .arrow = false := beq_false_of_ne h₂
    refine ⟨rfl, .inl ⟨isInert_iff.mpr ⟨h₁, h₃, h₄⟩, ?_⟩⟩
    simp [htype, harrow]

theorem next_body {depth : Nat} (hm : s.mode = .body f depth) (h : s.next t = .ok (mode, o)) :
    o = s.outline ∧ (∃ depth', braceDepth depth [t] = some depth' ∧ mode = .body f depth') ∨
      t.kind = .symbol .braceClose ∧ depth = 0 ∧ mode = .outside ∧
        s.outline.insert ⟨f.name, f.start, s.index, f.arity⟩ = .ok o := by
  simp only [next, hm] at h
  split at h
  next hk =>
    cases h
    exact .inl ⟨rfl, depth + 1, by simp [braceDepth, Token.isSymbol, hk], rfl⟩
  next hk =>
    split at h
    next depth =>
      cases h
      exact .inl ⟨rfl, depth, by simp [braceDepth, Token.isSymbol, hk], rfl⟩
    next =>
      split at h
      next outline hins =>
        cases h
        exact .inr ⟨hk, rfl, rfl, hins⟩
      next => cases h
  next h₁ h₂ =>
    cases h
    have hopen : t.isSymbol .braceOpen = false := beq_false_of_ne h₁
    have hclose : t.isSymbol .braceClose = false := beq_false_of_ne h₂
    exact .inl ⟨rfl, depth, by simp [braceDepth, hopen, hclose], rfl⟩

end Scan

/-! ## What a scan has read -/

/-- A type counts as long as no `->` stands before it. -/
theorem arity_concat (ts : List Token) (t : Token) : Header.arity (ts ++ [t]) =
    Header.arity ts + if !ts.any (·.isSymbol .arrow) && Header.isType t then 1 else 0 := by
  unfold Header.arity
  induction ts with
  | nil =>
    cases harrow : t.isSymbol .arrow with
    | true =>
      have hkind : t.kind = .symbol .arrow := by simpa [Token.isSymbol] using harrow
      simp [harrow, Header.isType, hkind]
    | false => simp [harrow, List.countP_cons]
  | cons u ts ih =>
    cases harrow : u.isSymbol .arrow with
    | true => simp [harrow]
    | false =>
      simp only [List.cons_append, List.takeWhile_cons, harrow, Bool.not_false, if_true,
        List.countP_cons, ih, List.any_cons, Bool.false_or]
      omega

/-- What has been read since the last function, which ended before the token of index `base`. -/
inductive Reading (base : Nat) : Mode → Option Token → List Token → Prop where
  | outside {gap : List Token} {previous : Option Token} (hg : ∀ t ∈ gap, isInert t = true)
      (hp : ∀ name p, previous = some ⟨.ident name, p⟩ →
        ∃ gap', gap = gap' ++ [⟨.ident name, p⟩]) : Reading base .outside previous gap
  | header {gap header : List Token} {name : String} {p q : Position} {previous : Option Token}
      {start arity : Nat} {returns : Bool} (hg : ∀ t ∈ gap, isInert t = true)
      (hh : ∀ t ∈ header, isInert t = true) (hs : start = base + gap.length)
      (ha : arity = Header.arity header) (hr : returns = header.any (·.isSymbol .arrow)) :
      Reading base (.header ⟨name, start, p, arity⟩ returns) previous
        (gap ++ ⟨.ident name, p⟩ :: ⟨.symbol .doubleColon, q⟩ :: header)
  | body {gap header body : List Token} {name : String} {p q r : Position}
      {previous : Option Token} {start arity depth : Nat} (hg : ∀ t ∈ gap, isInert t = true)
      (hh : ∀ t ∈ header, isInert t = true) (hs : start = base + gap.length)
      (ha : arity = Header.arity header) (hb : braceDepth 0 body = some depth) :
      Reading base (.body ⟨name, start, p, arity⟩ depth) previous
        (gap ++ ⟨.ident name, p⟩ :: ⟨.symbol .doubleColon, q⟩ ::
          (header ++ ⟨.symbol .braceOpen, r⟩ :: body))

theorem forall_mem_concat {α : Type} {P : α → Prop} {l : List α} {a : α} (hl : ∀ x ∈ l, P x)
    (ha : P a) : ∀ x ∈ l ++ [a], P x := by
  intro x hx
  rcases List.mem_append.mp hx with hx | hx
  · exact hl x hx
  · rwa [List.mem_singleton.mp hx]

namespace Reading

variable {s s' : Scan} {base : Nat} {read : List Token} {t : Token} {mode : Mode} {o : Outline}

/-- One more token is read, or it is the brace that closes a function. -/
theorem next (h : Reading base s.mode s.previous read) (hi : s.index = base + read.length)
    (hs : s.next t = .ok (mode, o)) :
    o = s.outline ∧ Reading base mode (some t) (read ++ [t]) ∨
      mode = .outside ∧ t.kind = .symbol .braceClose ∧ ∃ (gap : List Token) (sec : Section),
        (∀ u ∈ gap, isInert u = true) ∧ read ++ [t] = gap ++ sec.tokens ∧
          s.outline.insert (sec.entry (base + gap.length)) = .ok o := by
  generalize hm : s.mode = m at h
  generalize hprev : s.previous = previous at h
  obtain ⟨kind, pos⟩ := t
  cases h with
  | outside hg hp =>
    obtain ⟨rfl, ⟨hinert, rfl⟩ | ⟨rfl, name, p, hident, rfl⟩⟩ := Scan.next_outside hm hs
    · refine .inl ⟨rfl, .outside (forall_mem_concat hg hinert) ?_⟩
      rintro name p heq
      cases heq
      exact ⟨read, rfl⟩
    · -- The name has been read as part of what stands before the function.
      obtain ⟨gap, rfl⟩ := hp name p (hprev.symm.trans hident)
      have hstart : s.index - 1 = base + gap.length := by
        simp only [List.length_append, List.length_singleton] at hi
        omega
      refine .inl ⟨rfl, ?_⟩
      rw [List.append_assoc]
      exact .header (fun u hu => hg u (by simp [hu])) (by simp) hstart rfl rfl
  | @header gap header name p q _ start arity returns hg hh hstart ha hr =>
    obtain ⟨rfl, ⟨hinert, rfl⟩ | ⟨rfl, rfl⟩⟩ := Scan.next_header hm hs
    · refine .inl ⟨rfl, ?_⟩
      rw [List.append_assoc, List.cons_append, List.cons_append]
      exact .header hg (forall_mem_concat hh hinert) hstart (by rw [arity_concat, ha, hr])
        (by simp [hr])
    · refine .inl ⟨rfl, ?_⟩
      rw [List.append_assoc]
      exact .body hg hh hstart ha rfl
  | @body gap header body name p q r _ start arity depth hg hh hstart ha hb =>
    obtain ⟨rfl, depth', hdepth, rfl⟩ | ⟨rfl, rfl, rfl, hins⟩ := Scan.next_body hm hs
    · have hb' : braceDepth 0 (body ++ [⟨kind, pos⟩]) = some depth' := by
        rw [braceDepth_append, hb]
        exact hdepth
      refine .inl ⟨rfl, ?_⟩
      simpa using Reading.body hg hh hstart ha hb'
    · let sec : Section := ⟨name, p, q, header, r, body, pos, hh, hb⟩
      refine .inr ⟨rfl, rfl, gap, sec, hg, by simp [sec, Section.tokens, Section.behindName], ?_⟩
      have hentry : sec.entry (base + gap.length) = ⟨name, start, s.index, arity⟩ := by
        simp only [sec, Section.entry, Section.tokens, Section.behindName, hi, ha, hstart,
          List.length_append, List.length_cons, List.length_nil, Entry.mk.injEq, true_and, and_true]
        omega
      rw [hentry]
      exact hins

/-- Behind the last token everything has been cut into functions. -/
theorem run {ts : List Token} (h : Reading base s.mode s.previous read)
    (hi : s.index = base + read.length) (hr : s.run ts = .ok s') (hf : s'.finish = .ok o)
    (hn : (s.outline.entries.map (·.name)).Nodup) : ∃ ss,
      Sections (isInert · = true) base (read ++ ts) ss ∧
        o.entries = s.outline.entries ++ entriesOf ss ∧ (o.entries.map (·.name)).Nodup := by
  induction ts generalizing s base read with
  | nil =>
    cases hr
    obtain ⟨hm, rfl⟩ := Scan.finish_eq_ok.mp hf
    rw [hm] at h
    cases h with
    | outside hg _ => exact ⟨[], by simpa using Sections.nil hg, by simp [entriesOf], hn⟩
  | cons t ts ih =>
    obtain ⟨s₁, hstep, hr⟩ := Scan.run_cons_eq_ok.mp hr
    obtain ⟨mode, o₁, hnext, rfl⟩ := Scan.step_eq_ok.mp hstep
    obtain ⟨rfl, hread⟩ | ⟨rfl, hclose, gap, sec, hg, htokens, hins⟩ := h.next hi hnext
    · obtain ⟨ss, hss, ho⟩ := ih hread (by simp [hi]; omega) hr hn
      exact ⟨ss, by simpa using hss, ho⟩
    · obtain ⟨hnew, rfl⟩ := insert_eq_ok.mp hins
      have hlen : read.length + 1 = gap.length + sec.tokens.length := by
        simpa using congrArg List.length htokens
      have hread : Reading (base + gap.length + sec.tokens.length) .outside (some t) [] := by
        refine .outside (by simp) ?_
        rintro name p heq
        cases heq
        cases hclose
      obtain ⟨ss, hss, ho, hnames⟩ := ih hread (by simp [hi]; omega) hr (by
        rw [List.map_append, List.nodup_append]
        refine ⟨hn, by simp, ?_⟩
        rintro a ha b hb rfl
        rw [List.mem_singleton.mp hb] at ha
        exact hnew ha)
      refine ⟨(base + gap.length, sec) :: ss, ?_, by simp [ho, entriesOf], hnames⟩
      have hcut : read ++ t :: ts = gap ++ (sec.tokens ++ ts) := by
        rw [← List.append_assoc, ← htokens]
        simp
      rw [hcut]
      exact .cons hg sec (by simpa using hss)

end Reading

/-! ## Reading functions -/

namespace Scan

variable {s s₁ : Scan} {t : Token} {ts : List Token} {f : Opening}

theorem run_append (h : s.run ts = .ok s₁) (us : List Token) : s.run (ts ++ us) = s₁.run us := by
  induction ts generalizing s with
  | nil =>
    cases h
    rfl
  | cons t ts ih =>
    obtain ⟨s', hs, h⟩ := run_cons_eq_ok.mp h
    rw [List.cons_append, run, hs]
    exact ih h

theorem run_cons {mode : Mode} {o : Outline} (h : s.next t = .ok (mode, o)) (ts : List Token) :
    s.run (t :: ts) = run ⟨s.index + 1, some t, mode, o⟩ ts := by
  rw [run, step, h]

theorem next_of_inert_outside (hm : s.mode = .outside) (ht : isInert t = true) :
    s.next t = .ok (.outside, s.outline) := by
  obtain ⟨h₁, h₂, h₃⟩ := isInert_iff.mp ht
  simp only [next, hm]

theorem next_of_inert_header {returns : Bool} (hm : s.mode = .header f returns)
    (ht : isInert t = true) : s.next t = .ok
      (.header { f with arity := f.arity + if !returns && Header.isType t then 1 else 0 }
        (returns || t.isSymbol .arrow), s.outline) := by
  obtain ⟨h₁, h₂, h₃⟩ := isInert_iff.mp ht
  cases hnext : s.next t with
  | ok r =>
    obtain ⟨mode, o⟩ := r
    obtain ⟨rfl, ⟨-, rfl⟩ | ⟨hopen, -⟩⟩ := next_header hm hnext
    · rfl
    · exact absurd hopen h₂
  | error e =>
    simp only [next, hm] at hnext
    split at hnext <;> contradiction

theorem next_of_braceDepth {depth depth' : Nat} (hm : s.mode = .body f depth)
    (ht : braceDepth depth [t] = some depth') : s.next t = .ok (.body f depth', s.outline) := by
  simp only [next, hm]
  split
  next hk =>
    simp only [braceDepth, Token.isSymbol, hk] at ht
    cases ht
    rfl
  next hk =>
    cases depth with
    | zero => simp [braceDepth, Token.isSymbol, hk] at ht
    | succ depth =>
      simp only [braceDepth, Token.isSymbol, hk] at ht
      cases ht
      rfl
  next h₁ h₂ =>
    have hopen : t.isSymbol .braceOpen = false := beq_false_of_ne h₁
    have hclose : t.isSymbol .braceClose = false := beq_false_of_ne h₂
    simp only [braceDepth, hopen, hclose, Bool.false_eq_true, if_false] at ht
    cases ht
    rfl

theorem next_of_close {o : Outline} {p : Position} (hm : s.mode = .body f 0)
    (h : s.outline.insert ⟨f.name, f.start, s.index, f.arity⟩ = .ok o) :
    s.next ⟨.symbol .braceClose, p⟩ = .ok (.outside, o) := by
  simp only [next, hm, h]

theorem run_gap (hm : s.mode = .outside) (hg : ∀ t ∈ ts, isInert t = true) :
    ∃ previous, s.run ts = .ok ⟨s.index + ts.length, previous, .outside, s.outline⟩ := by
  induction ts generalizing s with
  | nil => exact ⟨s.previous, by rw [run, ← hm]; rfl⟩
  | cons t ts ih =>
    obtain ⟨ht, hts⟩ := List.forall_mem_cons.mp hg
    rw [run_cons (next_of_inert_outside hm ht)]
    obtain ⟨previous, h⟩ := @ih ⟨s.index + 1, some t, .outside, s.outline⟩ rfl hts
    refine ⟨previous, h.trans ?_⟩
    simp [Nat.add_comm, Nat.add_left_comm]

theorem run_header {returns : Bool} (hm : s.mode = .header f returns)
    (hh : ∀ t ∈ ts, isInert t = true) : ∃ previous returns', s.run ts =
      .ok ⟨s.index + ts.length, previous, .header { f with
        arity := f.arity + if returns then 0 else Header.arity ts } returns', s.outline⟩ := by
  induction ts generalizing s f returns with
  | nil =>
    refine ⟨s.previous, returns, ?_⟩
    rw [run]
    cases returns <;> simp [Header.arity, ← hm]
  | cons t ts ih =>
    obtain ⟨ht, hts⟩ := List.forall_mem_cons.mp hh
    rw [run_cons (next_of_inert_header hm ht)]
    obtain ⟨previous, returns', h⟩ := @ih ⟨s.index + 1, some t, _, s.outline⟩ _ _ rfl hts
    refine ⟨previous, returns', h.trans ?_⟩
    have hcount : (if (!returns && Header.isType t) = true then 1 else 0) +
        (if (returns || t.isSymbol .arrow) = true then 0 else Header.arity ts) =
          if returns = true then 0 else Header.arity (t :: ts) := by
      cases returns with
      | true => simp
      | false =>
        cases harrow : t.isSymbol .arrow with
        | true =>
          have hkind : t.kind = .symbol .arrow := by simpa [Token.isSymbol] using harrow
          simp [Header.arity, harrow, Header.isType, hkind]
        | false => simp [Header.arity, harrow, List.countP_cons, Nat.add_comm]
    simp only [Nat.add_assoc, hcount, List.length_cons, Nat.add_comm 1]

theorem run_body {depth depth' : Nat} (hm : s.mode = .body f depth)
    (hb : braceDepth depth ts = some depth') :
    ∃ previous, s.run ts = .ok ⟨s.index + ts.length, previous, .body f depth', s.outline⟩ := by
  induction ts generalizing s depth with
  | nil =>
    cases hb
    exact ⟨s.previous, by rw [run, ← hm]; rfl⟩
  | cons t ts ih =>
    have hsplit := braceDepth_append depth [t] ts
    rw [List.singleton_append, hb] at hsplit
    obtain ⟨middle, ht, hts⟩ := Option.bind_eq_some_iff.mp hsplit.symm
    rw [run_cons (next_of_braceDepth hm ht)]
    obtain ⟨previous, h⟩ := @ih ⟨s.index + 1, some t, .body f middle, s.outline⟩ _ rfl hts
    refine ⟨previous, h.trans ?_⟩
    simp [Nat.add_comm, Nat.add_left_comm]

/-- A scan that is outside of functions reads one and notes it. -/
theorem run_section (hm : s.mode = .outside) (sec : Section)
    (hn : sec.name ∉ s.outline.entries.map (·.name)) :
    s.run sec.tokens = .ok ⟨s.index + sec.tokens.length, some ⟨.symbol .braceClose, sec.closing⟩,
      .outside, ⟨s.outline.entries ++ [sec.entry s.index]⟩⟩ := by
  have hlen : sec.tokens.length = 2 + sec.header.length + 1 + sec.body.length + 1 := by
    simp only [Section.tokens, Section.behindName, List.length_append, List.length_cons,
      List.length_nil]
    omega
  have hname : s.next ⟨.ident sec.name, sec.pos⟩ = .ok (.outside, s.outline) :=
    next_of_inert_outside hm rfl
  obtain ⟨p₁, returns, hheader⟩ := @run_header
    ⟨s.index + 2, some ⟨.symbol .doubleColon, sec.colons⟩,
      .header ⟨sec.name, s.index, sec.pos, 0⟩ false, s.outline⟩ _ _ _ rfl sec.inert_header
  obtain ⟨p₂, hbody⟩ := @run_body
    ⟨s.index + 2 + sec.header.length + 1, some ⟨.symbol .braceOpen, sec.opening⟩,
      .body ⟨sec.name, s.index, sec.pos, Header.arity sec.header⟩ 0, s.outline⟩ _ _ _ _ rfl
    sec.balanced_body
  have hentry : sec.entry s.index =
      ⟨sec.name, s.index, s.index + 2 + sec.header.length + 1 + sec.body.length,
        Header.arity sec.header⟩ := by
    simp only [Section.entry, hlen, Entry.mk.injEq, true_and, and_true]
    omega
  have hins : s.outline.insert (sec.entry s.index) =
      .ok ⟨s.outline.entries ++ [sec.entry s.index]⟩ := insert_eq_ok.mpr ⟨hn, rfl⟩
  simp only [Bool.false_eq_true, if_false, Nat.zero_add] at hheader
  rw [hlen, Section.tokens, Section.behindName, run_cons hname, run_cons rfl]
  refine (run_append hheader _).trans ?_
  rw [run_cons rfl]
  refine (run_append hbody _).trans ?_
  rw [hentry] at hins ⊢
  rw [run_cons (next_of_close rfl hins), run]
  simp only [Nat.add_assoc]

end Scan

/-- A scan notes the functions that the tokens are cut into. -/
theorem Sections.run {base : Nat} {ts : List Token} {ss : List (Nat × Section)}
    (h : Sections (isInert · = true) base ts ss) {s : Scan} (hm : s.mode = .outside)
    (hi : s.index = base)
    (hn : ((s.outline.entries ++ entriesOf ss).map (·.name)).Nodup) :
    ∃ s', s.run ts = .ok s' ∧ s'.finish = .ok ⟨s.outline.entries ++ entriesOf ss⟩ := by
  induction h generalizing s with
  | nil hg =>
    obtain ⟨previous, hrun⟩ := Scan.run_gap hm hg
    exact ⟨_, hrun, by simp [Scan.finish, entriesOf]⟩
  | @cons base gap rest ss hg sec _ ih =>
    subst hi
    obtain ⟨previous, hgap⟩ := Scan.run_gap hm hg
    have hnew : sec.name ∉ s.outline.entries.map (·.name) := by
      intro hmem
      rw [List.map_append, List.nodup_append] at hn
      exact hn.2.2 sec.name hmem sec.name (by simp [entriesOf, Section.entry]) rfl
    have hsec :=
      @Scan.run_section ⟨s.index + gap.length, previous, .outside, s.outline⟩ rfl sec hnew
    obtain ⟨s', hrest, hfinish⟩ := @ih ⟨_, _, .outside, ⟨s.outline.entries ++
      [sec.entry (s.index + gap.length)]⟩⟩ rfl rfl (by simpa [entriesOf] using hn)
    refine ⟨s', ?_, by simpa [entriesOf] using hfinish⟩
    rw [Scan.run_append hgap, Scan.run_append hsec]
    exact hrest

/-- A scan succeeds exactly if the tokens can be cut into functions with different names. -/
theorem scan_eq_ok {ts : List Token} {o : Outline} : scan ts = .ok o ↔
    ∃ ss, Sections (isInert · = true) 0 ts ss ∧ o.entries = entriesOf ss ∧
      (o.entries.map (·.name)).Nodup := by
  constructor
  · intro h
    unfold scan at h
    cases hr : Scan.start.run ts with
    | error e => simp [hr] at h
    | ok s =>
      simp only [hr] at h
      have hread : Reading 0 Scan.start.mode Scan.start.previous [] :=
        .outside (by simp) (by simp [Scan.start])
      obtain ⟨ss, hss, ho, hn⟩ := hread.run rfl hr h .nil
      exact ⟨ss, hss, by simpa [Scan.start, empty] using ho, hn⟩
  · rintro ⟨ss, hss, ho, hn⟩
    obtain ⟨s', hrun, hfinish⟩ := @Sections.run _ _ _ hss Scan.start rfl rfl
      (by simpa [Scan.start, empty, ← ho] using hn)
    rw [scan, hrun]
    refine hfinish.trans ?_
    simp [Scan.start, empty, ← ho]

/-! ## Tokens of functions, and between them -/

namespace Sections

variable {P : Token → Prop} {base : Nat} {before ts : List Token} {ss : List (Nat × Section)}

theorem tokens_entry (h : Sections P base ts ss) (hb : before.length = base) :
    ∀ x ∈ ss, (x.2.entry x.1).tokens (before ++ ts) = x.2.tokens := by
  induction h generalizing before with
  | nil => simp
  | @cons base gap rest ss hg s _ ih =>
    have hcut : before ++ (gap ++ (s.tokens ++ rest)) = (before ++ gap ++ s.tokens) ++ rest := by
      simp
    refine List.forall_mem_cons.mpr ⟨?_, ?_⟩
    · have hstop : (s.entry (base + gap.length)).stop + 1 =
          (before ++ gap ++ s.tokens).length := by
        simp only [Section.entry, Section.tokens, List.length_append, List.length_cons, hb]
        omega
      have hstart : (s.entry (base + gap.length)).start = (before ++ gap).length := by
        simp [Section.entry, hb]
      rw [Entry.tokens, hcut, hstop, hstart, List.take_left, List.drop_left]
    · rw [hcut]
      exact ih (by simp [hb, Nat.add_assoc])

theorem forall_mem_gaps (h : Sections P base ts ss) (hb : before.length = base) :
    ∀ t ∈ gaps (before ++ ts) base (entriesOf ss), P t := by
  induction h generalizing before with
  | nil hg =>
    subst hb
    simpa [entriesOf, gaps] using hg
  | @cons base gap rest ss hg s _ ih =>
    have hcut : before ++ (gap ++ (s.tokens ++ rest)) = (before ++ gap ++ s.tokens) ++ rest := by
      simp
    have hstop : (s.entry (base + gap.length)).stop + 1 =
        base + gap.length + s.tokens.length := by
      simp only [Section.entry, Section.tokens, List.length_cons]
      omega
    have hstart : (s.entry (base + gap.length)).start = (before ++ gap).length := by
      simp [Section.entry, hb]
    intro t ht
    simp only [entriesOf, List.map_cons, gaps, hstop] at ht
    rcases List.mem_append.mp ht with ht | ht
    · rw [hstart, ← List.append_assoc, List.take_left, ← hb, List.drop_left] at ht
      exact hg t ht
    · rw [hcut] at ht
      exact ih (by simp [hb, Nat.add_assoc]) t ht

end Sections
end Outline
end ProcLang

import Mathlib.Data.List.Induction
import ProcLang.Proofs.Lexing.Longest

/-!
# Where tokens stand

The tokens of a text lie side by side in it. Each of them is spelled by its own bytes, and between
two of them there are only blanks. A cursor that has moved over some text has counted its bytes, its
line feeds, and its characters behind the last line feed.

## Main definitions

* `StandsAt` — a stretch of a text between two of its bytes.
* `Tiles` — what holds of the tokens of a text.
* `Cut` — how a text falls into blanks and tokens.

## Main statements

* `tiles_of_lex` — the tokens of a text tile it.
-/
namespace ProcLang

/-- The byte behind a stretch of text. -/
def Position.stop (p : Position) : Nat := p.offset + p.length

/-- In `source` the bytes from `start` up to `stop` are those of `text`. -/
def StandsAt (source : String) (start stop : Nat) (text : String) : Prop :=
  ∃ before after, source = before ++ text ++ after ∧ before.utf8ByteSize = start ∧
    (before ++ text).utf8ByteSize = stop

/-- The byte behind the last of the tokens, or `start` if there is none. -/
def stopOf (start : Nat) (ts : List Token) : Nat := (ts.getLast?.map (·.pos.stop)).getD start

/-- The tokens lie side by side in the text, and all but the blanks of the text is theirs. -/
structure Tiles (source : String) (tokens : List Token) : Prop where
  /-- The last token and no other is the end of the text. -/
  ends : ∃ ts p, tokens = ts ++ [⟨.eof, p⟩] ∧ (∀ t ∈ ts, t.kind ≠ .eof) ∧
    p.offset = source.utf8ByteSize ∧ p.length = 0
  nonempty : ∀ t ∈ tokens, t.kind ≠ .eof → 0 < t.pos.length
  ordered : tokens.Pairwise fun t u => t.pos.stop ≤ u.pos.offset
  inside : ∀ t ∈ tokens, t.pos.stop ≤ source.utf8ByteSize
  /-- Between a token and the one before it, or the start of the text, there are only blanks. -/
  blanks : ∀ ts t us, tokens = ts ++ t :: us →
    ∃ gap, StandsAt source (stopOf 0 ts) t.pos.offset gap ∧
      ∀ c ∈ gap.toList, c = ' ' ∨ c = '\t' ∨ c = '\r'
  spelled : ∀ t ∈ tokens, ∃ text, StandsAt source t.pos.offset t.pos.stop text ∧
    t.kind.SpelledBy text
  /-- Lines and columns are counted from one. -/
  counted : ∀ t ∈ tokens, ∀ before after, source = before ++ after →
    before.utf8ByteSize = t.pos.offset → t.pos.line = 1 + before.toList.count '\n' ∧
      t.pos.column = 1 + (before.toList.reverse.takeWhile (· != '\n')).length

/-! ## Cursors -/

namespace Cursor

theorem offset_advance (p : Cursor) (cs : List Char) :
    (p.advance cs).offset = p.offset + (String.ofList cs).utf8ByteSize := by
  induction cs generalizing p with
  | nil => simp
  | cons c cs ih =>
    have hstep : (p.step c).offset = p.offset + c.utf8Size := by
      unfold step
      split <;> rfl
    have hsize : (String.ofList (c :: cs)).utf8ByteSize =
        c.utf8Size + (String.ofList cs).utf8ByteSize := by
      rw [← List.singleton_append, String.ofList_append, String.utf8ByteSize_append]
      simp
    rw [advance_cons, ih, hstep, hsize, Nat.add_assoc]

/-- What a cursor has counted from the start of a text. -/
theorem advance_start (cs : List Char) :
    start.advance cs = ⟨(String.ofList cs).utf8ByteSize, 1 + cs.count '\n',
      1 + (cs.reverse.takeWhile (· != '\n')).length⟩ := by
  have hoffset := offset_advance start cs
  have hrest : (start.advance cs).line = 1 + cs.count '\n' ∧
      (start.advance cs).column = 1 + (cs.reverse.takeWhile (· != '\n')).length := by
    clear hoffset
    induction cs using List.reverseRecOn with
    | nil => exact ⟨rfl, rfl⟩
    | append_singleton cs c ih =>
      obtain ⟨hline, hcolumn⟩ := ih
      by_cases hc : c = '\n'
      · simp [step, hc, hline, Nat.add_assoc]
      · simp [step, hc, hline, hcolumn, Nat.add_assoc]
  generalize start.advance cs = p at hoffset hrest
  obtain ⟨offset, line, column⟩ := p
  simp_all [start]

@[simp] theorem offset_span (p : Cursor) (cs : List Char) : (p.span cs).offset = p.offset := rfl

@[simp] theorem length_span (p : Cursor) (cs : List Char) :
    (p.span cs).length = (String.ofList cs).utf8ByteSize := by
  simp [span, offset_advance]

end Cursor

/-- A text has only one start of a given number of bytes. -/
theorem eq_of_utf8ByteSize_eq {cs ds text : List Char} (hcs : cs <+: text) (hds : ds <+: text)
    (h : (String.ofList cs).utf8ByteSize = (String.ofList ds).utf8ByteSize) : cs = ds := by
  have hnil (es : List Char) (hes : (String.ofList es).utf8ByteSize = 0) : es = [] := by
    simpa using hes
  rcases List.prefix_or_prefix_of_prefix hcs hds with ⟨es, rfl⟩ | ⟨es, rfl⟩
  · rw [String.ofList_append, String.utf8ByteSize_append] at h
    rw [hnil es (by omega), List.append_nil]
  · rw [String.ofList_append, String.utf8ByteSize_append] at h
    rw [hnil es (by omega), List.append_nil]

/-! ## Cutting a text -/

/-- `Cut here cs tokens`: the text `cs`, which starts at `here`, falls into the tokens and into
blanks in front of them. -/
inductive Cut : Cursor → List Char → List Token → Prop where
  | eof {here : Cursor} {blanks : List Char} (hb : ∀ c ∈ blanks, isBlank c) :
      Cut here blanks [⟨.eof, (here.advance blanks).span []⟩]
  | token {here : Cursor} {blanks text rest : List Char} {kind : Token.Kind} {tokens : List Token}
      (hb : ∀ c ∈ blanks, isBlank c) (htext : text ≠ []) (hkind : kind ≠ .eof)
      (hs : kind.SpelledBy (String.ofList text))
      (h : Cut (here.advance (blanks ++ text)) rest tokens) :
      Cut here (blanks ++ (text ++ rest)) (⟨kind, (here.advance blanks).span text⟩ :: tokens)

theorem cut_of_lexFrom {here : Cursor} {cs : List Char} {tokens : List Token}
    (h : lexFrom here cs = .ok tokens) : Cut here cs tokens := by
  induction cs using lexing_induction generalizing here tokens with
  | blank gap hgap =>
    rw [lexFrom_gap hgap] at h
    cases h
    exact .eof hgap.isBlank
  | stuck gap cause c cs hgap hc hstuck =>
    rw [lexFrom_of_stuck hgap here hc hstuck] at h
    cases h
  | token gap kind text rest hgap hlongest ih =>
    rw [lexFrom_of_longest hgap here hlongest] at h
    cases hrest : lexFrom ((here.advance gap).advance text) rest with
    | error e =>
      rw [hrest] at h
      cases h
    | ok ts =>
      rw [hrest] at h
      cases h
      obtain ⟨hspelled, hkind⟩ := hlongest.spelledBy
      obtain ⟨c, cs, rfl, -⟩ := hlongest.exists_cons
      rw [← Cursor.advance_append] at hrest
      exact .token hgap.isBlank (List.cons_ne_nil c cs) hkind hspelled (ih hrest)

/-! ## Places of tokens -/

/-- Token `t` stands in a text, with only blanks between byte `start` and it. -/
def Token.Follows (source : List Char) (start : Nat) (t : Token) : Prop :=
  ∃ before gap text after, source = before ++ gap ++ text ++ after ∧
    (String.ofList before).utf8ByteSize = start ∧ (∀ c ∈ gap, isBlank c) ∧
    t.pos = (Cursor.start.advance (before ++ gap)).span text ∧
    t.kind.SpelledBy (String.ofList text)

namespace Cut

variable {before cs : List Char} {here : Cursor} {tokens : List Token}

theorem stopOf_cons (start : Nat) (t : Token) (ts : List Token) :
    stopOf start (t :: ts) = stopOf t.pos.stop ts := by
  cases ts <;> simp [stopOf, List.getLast?_cons]

/-- Every token follows on the one before it. -/
theorem follows (h : Cut here cs tokens) (hhere : here = Cursor.start.advance before)
    {ts us : List Token} {t : Token} (ht : tokens = ts ++ t :: us) :
    t.Follows (before ++ cs) (stopOf (String.ofList before).utf8ByteSize ts) := by
  -- Each token goes over to the text before the cursor, which stays what the cursor has counted.
  induction h generalizing before ts with
  | @eof here blanks hb =>
    cases ts with
    | nil =>
      cases ht
      refine ⟨before, blanks, [], [], by simp, rfl, hb, by rw [hhere, Cursor.advance_append], rfl⟩
    | cons t' ts => simp at ht
  | @token here blanks text rest kind tokens hb _ _ hs _ ih =>
    cases ts with
    | nil =>
      cases ht
      exact ⟨before, blanks, text, rest, by simp, rfl, hb, by rw [hhere, Cursor.advance_append], hs⟩
    | cons t' ts =>
      rw [List.cons_append] at ht
      obtain ⟨rfl, htail⟩ := List.cons_eq_cons.mp ht
      have hnext : here.advance (blanks ++ text) =
          Cursor.start.advance (before ++ (blanks ++ text)) := by
        rw [hhere, Cursor.advance_append _ before]
      have hstop : (Position.stop ((here.advance blanks).span text)) =
          (String.ofList (before ++ (blanks ++ text))).utf8ByteSize := by
        simp [Position.stop, hhere, Cursor.offset_advance, Cursor.start, String.ofList_append,
          Nat.add_assoc]
      rw [stopOf_cons, hstop]
      simpa using ih hnext htail

theorem exists_eof (h : Cut here cs tokens) : ∃ ts, tokens =
      ts ++ [⟨.eof, (here.advance cs).span []⟩] ∧ ∀ t ∈ ts, t.kind ≠ .eof := by
  induction h with
  | eof hb => exact ⟨[], rfl, by simp⟩
  | @token here blanks text rest kind tokens _ _ hkind _ _ ih =>
    obtain ⟨ts, hts, hne⟩ := ih
    refine ⟨⟨kind, (here.advance blanks).span text⟩ :: ts, by simp [hts], ?_⟩
    exact List.forall_mem_cons.mpr ⟨hkind, hne⟩

theorem length_pos (h : Cut here cs tokens) : ∀ t ∈ tokens, t.kind ≠ .eof → 0 < t.pos.length := by
  induction h with
  | eof hb => simp
  | token _ htext _ _ _ ih =>
    refine List.forall_mem_cons.mpr ⟨fun _ => ?_, ih⟩
    rw [Cursor.length_span]
    exact Nat.pos_of_ne_zero (by simpa using htext)

theorem offset_le (h : Cut here cs tokens) : ∀ t ∈ tokens, here.offset ≤ t.pos.offset := by
  induction h with
  | eof hb => simp [Cursor.offset_advance]
  | token _ _ _ _ _ ih =>
    refine List.forall_mem_cons.mpr ⟨by simp [Cursor.offset_advance], fun t ht => ?_⟩
    have := ih t ht
    rw [Cursor.offset_advance] at this
    omega

theorem ordered (h : Cut here cs tokens) :
    tokens.Pairwise fun t u => t.pos.stop ≤ u.pos.offset := by
  induction h with
  | eof hb => simp
  | token _ _ _ _ h ih =>
    refine List.pairwise_cons.mpr ⟨fun u hu => ?_, ih⟩
    have := h.offset_le u hu
    simpa [Position.stop, Cursor.offset_advance, String.ofList_append, Nat.add_assoc] using this

end Cut

/-! ## Tokens of a text -/

namespace Token.Follows

variable {source : String} {start : Nat} {t : Token}

theorem blanks (h : t.Follows source.toList start) : ∃ gap, StandsAt source start t.pos.offset gap ∧
    ∀ c ∈ gap.toList, c = ' ' ∨ c = '\t' ∨ c = '\r' := by
  obtain ⟨before, gap, text, after, hsource, hstart, hgap, hpos, -⟩ := h
  refine ⟨String.ofList gap,
    ⟨String.ofList before, String.ofList (text ++ after), ?_, hstart, ?_⟩, ?_⟩
  · rw [← String.ofList_toList (s := source), hsource]
    simp [String.ofList_append, String.append_assoc]
  · rw [hpos, Cursor.offset_span, Cursor.advance_start, String.ofList_append]
  · intro c hc
    simpa [isBlank, or_assoc] using hgap c (by simpa using hc)

theorem spelled (h : t.Follows source.toList start) :
    ∃ text, StandsAt source t.pos.offset t.pos.stop text ∧ t.kind.SpelledBy text := by
  obtain ⟨before, gap, text, after, hsource, -, -, hpos, hs⟩ := h
  refine ⟨String.ofList text, ⟨String.ofList (before ++ gap), String.ofList after, ?_, ?_, ?_⟩, hs⟩
  · rw [← String.ofList_toList (s := source), hsource]
    simp [String.ofList_append, String.append_assoc]
  · rw [hpos, Cursor.offset_span, Cursor.advance_start]
  · rw [hpos, Position.stop, Cursor.offset_span, Cursor.length_span, Cursor.advance_start,
      String.utf8ByteSize_append]

theorem counted (h : t.Follows source.toList start) {before after : String}
    (hsplit : source = before ++ after) (hoffset : before.utf8ByteSize = t.pos.offset) :
    t.pos.line = 1 + before.toList.count '\n' ∧
      t.pos.column = 1 + (before.toList.reverse.takeWhile (· != '\n')).length := by
  obtain ⟨left, gap, text, right, hsource, -, -, hpos, -⟩ := h
  have hopens : before.toList <+: source.toList :=
    ⟨after.toList, by rw [hsplit, String.toList_append]⟩
  have hbefore : before.toList = left ++ gap := by
    apply eq_of_utf8ByteSize_eq hopens
    · exact ⟨text ++ right, by rw [hsource, ← List.append_assoc]⟩
    · rw [String.ofList_toList, hoffset, hpos, Cursor.offset_span, Cursor.advance_start]
  rw [hpos, hbefore, Cursor.advance_start]
  exact ⟨rfl, rfl⟩

end Token.Follows

theorem exists_follows_of_lex {source : String} {tokens : List Token}
    (h : lex source = .ok tokens) {t : Token} (ht : t ∈ tokens) :
    ∃ start, t.Follows source.toList start := by
  obtain ⟨ts, us, hts⟩ := List.append_of_mem ht
  have hstart : Cursor.start = Cursor.start.advance [] := rfl
  exact ⟨_, (cut_of_lexFrom h).follows hstart hts⟩

/-- The tokens of a text tile it. -/
theorem tiles_of_lex {source : String} {tokens : List Token} (h : lex source = .ok tokens) :
    Tiles source tokens := by
  have hcut := cut_of_lexFrom h
  have hfollows : ∀ {ts t us}, tokens = ts ++ t :: us → t.Follows source.toList (stopOf 0 ts) := by
    intro ts t us ht
    have hstart : Cursor.start = Cursor.start.advance [] := rfl
    exact hcut.follows hstart ht
  have hmem : ∀ t ∈ tokens, ∃ start, t.Follows source.toList start := by
    intro t ht
    obtain ⟨ts, us, hts⟩ := List.append_of_mem ht
    exact ⟨_, hfollows hts⟩
  refine ⟨?_, hcut.length_pos, hcut.ordered, ?_, fun ts t us ht => (hfollows ht).blanks, ?_, ?_⟩
  · obtain ⟨ts, hts, hne⟩ := hcut.exists_eof
    refine ⟨ts, _, hts, hne, ?_, by simp⟩
    simp [Cursor.advance_start]
  · intro t ht
    obtain ⟨start, hf⟩ := hmem t ht
    obtain ⟨text, ⟨before, after, hsource, -, hstop⟩, -⟩ := hf.spelled
    rw [hsource, String.utf8ByteSize_append]
    omega
  · intro t ht
    obtain ⟨start, hf⟩ := hmem t ht
    exact hf.spelled
  · intro t ht before after hsplit hoffset
    obtain ⟨start, hf⟩ := hmem t ht
    exact hf.counted hsplit hoffset

theorem tiles_of_lex_two_lines : ∃ tokens, lex "a:\n\tf64 = 2.50" = .ok tokens ∧
    tokens.map (·.pos) = [⟨0, 1, 1, 1⟩, ⟨1, 1, 1, 2⟩, ⟨2, 1, 1, 3⟩, ⟨4, 3, 2, 2⟩, ⟨8, 1, 2, 6⟩,
      ⟨10, 4, 2, 8⟩, ⟨14, 0, 2, 12⟩] ∧ Tiles "a:\n\tf64 = 2.50" tokens := by
  have hpos : (lex "a:\n\tf64 = 2.50").toOption.map (·.map (·.pos)) = some
      [⟨0, 1, 1, 1⟩, ⟨1, 1, 1, 2⟩, ⟨2, 1, 1, 3⟩, ⟨4, 3, 2, 2⟩, ⟨8, 1, 2, 6⟩, ⟨10, 4, 2, 8⟩,
        ⟨14, 0, 2, 12⟩] := by
    decide +kernel
  cases h : lex "a:\n\tf64 = 2.50" with
  | error e => simp [h, Except.toOption] at hpos
  | ok tokens =>
    rw [h] at hpos
    exact ⟨tokens, rfl, Option.some.inj hpos, tiles_of_lex h⟩

end ProcLang

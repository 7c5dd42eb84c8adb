import ProcLang.Proofs.IR.Rendering
import ProcLang.Proofs.Lexing.Spans
import ProcLang.Proofs.Lowering.Legible
import ProcLang.Proofs.Parsing.Provenance

/-!
# The text of a module loses nothing

A module that comes from a source text is legible: the names in it were identifiers of the source,
so that none of them can be taken for a temporary or cut in two, and its code is typed. So it can be
told from its text.

## Main statements

* `Program.named_of_parse` — names of a program come from identifiers of its source.
* `Program.module_eq_of_text_eq` — modules of one name that come from sources have different texts.
-/
namespace ProcLang

/-- An identifier has no marks and no points. -/
theorem IsIdentifier.isName {word : String} (h : IsIdentifier word) : IsName word := by
  have hmarks : [' ', ',', '(', ')', '\n'].any isWordChar = false := by decide
  refine ⟨fun c hc => ?_, fun hc => absurd (h.chars _ hc) (by decide)⟩
  cases hmark : isMark c with
  | false => rfl
  | true =>
    exact absurd (h.chars c hc) (List.any_eq_false.mp hmarks c (List.contains_iff_mem.mp hmark))

/-- Every parameter was read from the identifier that it is named after. -/
theorem Header.Renders.exists_ident {ps : List Param} {tys : List Ty} {ts : List Token}
    (h : Renders ps tys ts) {q : Param} (hq : q ∈ ps) : ∃ pos, ⟨.ident q.name, pos⟩ ∈ ts := by
  obtain ⟨hp, -⟩ := h
  cases hp with
  | nothing => cases hq
  | listed hp =>
    obtain ⟨us, hus, hsub⟩ := hp.exists_of_mem hq
    cases hus with
    | mk name ty p pos => exact ⟨pos, List.mem_append_left _ (hsub (by simp))⟩

namespace Program

/-- The names of a program are identifiers of the text that it was read from. -/
theorem named_of_parse {source : String} {ts : List Token} {p : Program}
    (hlex : lex source = .ok ts) (hparse : Program.parse ts = .ok p) : p.Named := by
  have hname : ∀ {name pos}, ⟨.ident name, pos⟩ ∈ ts → IsName name := by
    intro name pos ht
    obtain ⟨start, hfollows⟩ := exists_follows_of_lex hlex ht
    obtain ⟨text, -, hspelled⟩ := hfollows.spelled
    exact hspelled.2.isName
  obtain ⟨ss, hss, -, -, hall⟩ := Program.parse_eq_ok.mp hparse
  intro d hd
  obtain ⟨x, hx, hdecl⟩ := exists_of_forall₂ hall.flip hd
  have htokens := hss.forall_mem (fun t (ht : t ∈ ts) => ht) x hx
  refine ⟨?_, fun q hq => ?_⟩
  · rw [hdecl.name]
    exact hname (htokens _ List.mem_cons_self)
  · obtain ⟨pos, hpos⟩ := hdecl.header.exists_ident hq
    refine hname (htokens ⟨_, pos⟩ ?_)
    simp [Outline.Section.tokens, Outline.Section.behindName, (List.mem_filter.mp hpos).1]

/-- Two modules of one name that come from source texts are equal if their texts are. -/
theorem module_eq_of_text_eq {source source' name : String} {ts ts' : List Token} {p p' : Program}
    {m m' : IR.Module} (hlex : lex source = .ok ts) (hparse : Program.parse ts = .ok p)
    (hlower : p.lower name = .ok m) (hlex' : lex source' = .ok ts')
    (hparse' : Program.parse ts' = .ok p') (hlower' : p'.lower name = .ok m')
    (htext : m.text = m'.text) : m = m' := by
  have hm := legible_of_lower hlower (named_of_parse hlex hparse)
  have hm' := legible_of_lower hlower' (named_of_parse hlex' hparse')
  have hname : m.name = m'.name := (name_of_lower hlower).trans (name_of_lower hlower').symm
  exact IR.Module.eq_of_text_eq hm hm' hname htext

/-- The text of the module of a source text, if it has one. -/
def moduleText? (name source : String) : Option String := do
  let ts ← (lex source).toOption
  let p ← (Program.parse ts).toOption
  let m ← (p.lower name).toOption
  return m.text

theorem exists_of_moduleText? {name source text : String}
    (h : moduleText? name source = some text) :
    ∃ ts p m, lex source = .ok ts ∧ Program.parse ts = .ok p ∧ p.lower name = .ok m ∧
      m.text = text := by
  unfold moduleText? at h
  cases hlex : lex source with
  | error e => simp [hlex, Except.toOption] at h
  | ok ts =>
    cases hparse : Program.parse ts with
    | error e => simp [hlex, hparse, Except.toOption] at h
    | ok p =>
      cases hlower : p.lower name with
      | error e => simp [hlex, hparse, hlower, Except.toOption] at h
      | ok m =>
        simp only [hlex, hparse, hlower, Except.toOption, Option.bind_eq_bind, Option.bind_some,
          Option.pure_def, Option.some.injEq] at h
        exact ⟨ts, p, m, rfl, hparse, hlower, h⟩

/-- Storage for a parameter, a conversion between floats, a conditional and a call. -/
def renderSample : String := "f :: f32 x -> f32 \x7b if x < 0.1 \x7b return f(x) \x7d \x7d"

/-- The same with parentheses, another spelling of a number, a name for the result and a statement
that has no code. -/
def renderSampleSpelledOut : String :=
  "f :: f32 x -> f32 y \x7b if (x < 0.10) \x7b return f((x))\n7 \x7d \x7d"

theorem module_eq_renderSample : ∃ ts ts' p p' m m', lex renderSample = .ok ts ∧
    Program.parse ts = .ok p ∧ p.lower "sample" = .ok m ∧ lex renderSampleSpelledOut = .ok ts' ∧
    Program.parse ts' = .ok p' ∧ p'.lower "sample" = .ok m' ∧ m.text = m'.text ∧ m = m' := by
  have hsame : moduleText? "sample" renderSample = moduleText? "sample" renderSampleSpelledOut ∧
      (moduleText? "sample" renderSample).isSome = true := by decide +kernel
  obtain ⟨hsame, hsome⟩ := hsame
  obtain ⟨text, htext⟩ := Option.isSome_iff_exists.mp hsome
  obtain ⟨ts, p, m, hlex, hparse, hlower, hm⟩ := exists_of_moduleText? htext
  obtain ⟨ts', p', m', hlex', hparse', hlower', hm'⟩ := exists_of_moduleText? (hsame ▸ htext)
  have heq : m.text = m'.text := hm.trans hm'.symm
  exact ⟨ts, ts', p, p', m, m', hlex, hparse, hlower, hlex', hparse', hlower', heq,
    module_eq_of_text_eq hlex hparse hlower hlex' hparse' hlower' heq⟩

end Program
end ProcLang

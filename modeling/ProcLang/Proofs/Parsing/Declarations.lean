import ProcLang.Declaration.Parser
import ProcLang.Proofs.Parsing.Sections

/-!
# Functions from sections

Every section that a scan finds is read on its own, with the outline of all of them. A program is
read if the sections have different names, if only breaks stand between them, and if each can be
read.

## Main definitions

* `Outline.Section.Declares` — the function that a section declares.
* `Outline.Entry.Notes` — what a scan knows of a function.

## Main statements

* `Program.parse_eq_ok` — programs are read section by section.
* `Outline.notes_entriesOf`, `Outline.arity?_eq` — a scan counts the parameters of functions.
-/
namespace ProcLang

namespace Outline

/-- The function that a section declares, if `o` tells its calls from its variables. -/
structure Section.Declares (s : Section) (o : Outline) (d : Declaration) : Prop where
  name : d.name = s.name
  header : Header.Renders d.params d.returns (s.header.filter (!·.isSymbol .lineBreak))
  body : Stmt.parse o s.body = .ok d.body
  pos : d.pos = some s.pos

/-- The header and the body of a section are read on their own. -/
theorem Section.parse_eq (s : Section) (o : Outline) : Declaration.parse o s.name s.tokens = (do
      let (params, returns) ← Header.parse s.name s.header
      let body ← Stmt.parse o s.body
      return ⟨s.name, params, returns, body, some s.pos⟩) := by
  let front : List Token := ⟨.ident s.name, s.pos⟩ :: ⟨.symbol .doubleColon, s.colons⟩ :: s.header
  have hfront : ∀ t ∈ front, (!t.opensBlock) = true := by
    intro t ht
    rcases List.mem_cons.mp ht with rfl | ht
    · rfl
    rcases List.mem_cons.mp ht with rfl | ht
    · rfl
    · have hinert := (isInert_iff.mp (s.inert_header t ht)).2.1
      simp [Token.opensBlock, Token.isSymbol, hinert]
  obtain ⟨htake, hdrop⟩ := takeWhile_dropWhile_append hfront
    (⟨.symbol .braceOpen, s.opening⟩ :: (s.body ++ [⟨.symbol .braceClose, s.closing⟩]))
    (by simp [Token.opensBlock, Token.isSymbol])
  have htokens : s.tokens = front ++
    ⟨.symbol .braceOpen, s.opening⟩ :: (s.body ++ [⟨.symbol .braceClose, s.closing⟩]) := rfl
  have hhead : s.tokens.head?.map Token.pos = some s.pos := rfl
  simp only [Declaration.parse, hhead]
  rw [htokens, hdrop, htake]
  simp only [List.dropLast_concat, front, List.drop_succ_cons, List.drop_zero]

theorem Section.parse_eq_ok {s : Section} {o : Outline} {d : Declaration} :
    Declaration.parse o s.name s.tokens = .ok d ↔ s.Declares o d := by
  rw [Section.parse_eq]
  simp only [bind_eq_ok, Prod.exists, Header.parse_eq_ok]
  constructor
  · rintro ⟨params, returns, hh, body, hb, hd⟩
    cases hd
    exact ⟨rfl, hh, hb, rfl⟩
  · obtain ⟨name, params, returns, body, pos⟩ := d
    rintro ⟨rfl, hh, hb, rfl⟩
    exact ⟨params, returns, hh, body, hb, rfl⟩

theorem checkOutside_eq_ok {o : Outline} {ts : List Token} : o.checkOutside ts = .ok () ↔
    ∀ t ∈ o.outside ts, t.isBreak = true ∨ t.isEof = true := by
  unfold checkOutside
  split
  next t ht =>
    have hbad := List.find?_some ht
    have hmem := List.mem_of_find?_eq_some ht
    simp only [reduceCtorEq, false_iff, not_forall]
    refine ⟨t, hmem, ?_⟩
    simpa using hbad
  next hnone =>
    simp only [true_iff]
    intro t ht
    have := List.find?_eq_none.mp hnone t ht
    cases hb : t.isBreak <;> simp_all

/-- An entry of a function: its name and how many parameters it has. -/
def Entry.Notes (e : Entry) (d : Declaration) : Prop :=
  e.name = d.name ∧ e.arity = d.params.length

/-- A scan counts the parameters of functions. -/
theorem notes_entriesOf {ss : List (Nat × Section)} {p : Program}
    (h : List.Forall₂ (fun x d => d.name = x.2.name ∧
      Header.Renders d.params d.returns (x.2.header.filter (!·.isSymbol .lineBreak))) ss p) :
    List.Forall₂ Entry.Notes (entriesOf ss) p := by
  rw [entriesOf, List.forall₂_map_left_iff]
  refine h.imp fun x d hx => ⟨hx.1.symm, ?_⟩
  have harity : (x.2.entry x.1).arity = Header.arity x.2.header := rfl
  rw [harity, ← Header.arity_filter]
  exact Header.arity_of_renders hx.2

theorem names_eq {es : List Entry} {p : Program} (h : List.Forall₂ Entry.Notes es p) :
    es.map (·.name) = p.map (·.name) := by
  rw [← List.forall₂_eq_eq_eq, List.forall₂_map_left_iff, List.forall₂_map_right_iff]
  exact h.imp fun e d h => h.1

/-- An outline of a program knows how many arguments its functions take. -/
theorem arity?_eq {es : List Entry} {p : Program} (h : List.Forall₂ Entry.Notes es p) :
    (⟨es⟩ : Outline).arity? = p.arity? := by
  funext name
  induction h with
  | nil => rfl
  | @cons e d es p hed _ ih =>
    simp only [Outline.arity?, Program.arity?, get?, List.find?_cons, hed.1] at ih ⊢
    cases d.name == name with
    | true => simp [hed.2]
    | false => exact ih

end Outline

open Outline in
/-- Programs are read section by section. -/
theorem Program.parse_eq_ok {ts : List Token} {p : Program} : Program.parse ts = .ok p ↔
    ∃ ss, Sections (isInert · = true) 0 ts ss ∧ ((entriesOf ss).map (·.name)).Nodup ∧
      (∀ t ∈ gaps ts 0 (entriesOf ss), t.isBreak = true ∨ t.isEof = true) ∧
      List.Forall₂ (fun x d => x.2.Declares ⟨entriesOf ss⟩ d) ss p := by
  have hread : ∀ {ss : List (Nat × Section)} (o : Outline), Sections (isInert · = true) 0 ts ss →
      ((entriesOf ss).mapM (fun e => Declaration.parse o e.name (e.tokens ts)) = .ok p ↔
        List.Forall₂ (fun x d => x.2.Declares o d) ss p) := by
    intro ss o hss
    have htokens : ∀ x ∈ ss, (x.2.entry x.1).tokens ts = x.2.tokens :=
      @Sections.tokens_entry _ _ [] _ _ hss rfl
    rw [mapM_eq_ok, entriesOf, List.forall₂_map_left_iff]
    constructor
    · intro h
      refine ((List.forall₂_and_left _ _).mpr ⟨htokens, h⟩).imp fun x d hx => ?_
      obtain ⟨hx, hd⟩ := hx
      rw [hx] at hd
      exact Section.parse_eq_ok.mp hd
    · intro h
      refine ((List.forall₂_and_left _ _).mpr ⟨htokens, h⟩).imp fun x d hx => ?_
      rw [hx.1]
      exact Section.parse_eq_ok.mpr hx.2
  unfold Program.parse
  simp only [bind_eq_ok, scan_eq_ok]
  constructor
  · rintro ⟨o, ⟨ss, hss, ho, hn⟩, ⟨⟩, hout, hm⟩
    obtain ⟨entries⟩ := o
    subst ho
    exact ⟨ss, hss, hn, checkOutside_eq_ok.mp hout, (hread _ hss).mp hm⟩
  · rintro ⟨ss, hss, hn, hout, hd⟩
    exact ⟨⟨entriesOf ss⟩, ⟨ss, hss, rfl, hn⟩, (), checkOutside_eq_ok.mpr hout,
      (hread _ hss).mpr hd⟩

end ProcLang

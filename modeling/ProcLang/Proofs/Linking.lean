import ProcLang.Proofs.Lowering.Faults
import ProcLang.Proofs.Parsing.Soundness
import ProcLang.Token.Lexer

/-!
# Programs that have been read

The number of arguments of a function is counted twice: by the scan, which counts types in front of
an `->`, and by the reader of headers, which cuts at commas. A third time it matters when a call is
lowered. All three agree on every program that can be read.

## Main statements

* `Program.agreement_of_parse` — the scan, the reader and the lowering agree.
-/
namespace ProcLang.Program

/-- A program that has been read goes with its outline and is linked, so that lowering it cannot
fail for a number of arguments, for a function that is not there or that is used like a variable,
nor for a return or an assignment that is used like a value. -/
theorem agreement_of_parse {ts : List Token} {p : Program} (h : Program.parse ts = .ok p) :
    (∃ o, Outline.scan ts = .ok o ∧ List.Forall₂ Outline.Entry.Notes o.entries p) ∧ p.Linked ∧
      ∀ name e, p.lower name = .error e → e.cause.isLinkFault = false := by
  obtain ⟨o, ho, hnotes, hn, hl⟩ := exists_scan_of_parse h
  exact ⟨⟨o, ho, hnotes⟩, hl, fun name e he => isLinkFault_of_lower hn hl he⟩

/-- A function that calls one further down, and reads a variable that is not there. -/
def linkSample : String :=
  "f :: i32 a \x7b if g(a) \x7b x := g(g(1)) \x7d else \x7b f(a); f(y) \x7d \x7d\n" ++
    "g :: i32 b -> i32 \x7b return b \x7d"

theorem agreement_linkSample : ∃ ts p, lex linkSample = .ok ts ∧ Program.parse ts = .ok p ∧
    (∃ o, Outline.scan ts = .ok o ∧ List.Forall₂ Outline.Entry.Notes o.entries p) ∧ p.Linked ∧
      ∀ name e, p.lower name = .error e → e.cause.isLinkFault = false := by
  have hread : ((lex linkSample).toOption.bind fun ts => (Program.parse ts).toOption).isSome =
      true := by decide +kernel
  cases hlex : lex linkSample with
  | error e => simp [hlex, Except.toOption] at hread
  | ok ts =>
    cases hparse : Program.parse ts with
    | error e => simp [hlex, hparse, Except.toOption] at hread
    | ok p => exact ⟨ts, p, rfl, hparse, agreement_of_parse hparse⟩

end ProcLang.Program

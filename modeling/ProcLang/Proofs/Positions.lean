import ProcLang.Proofs.Lexing.Spans
import ProcLang.Proofs.Parsing.Provenance

/-!
# Positions of a program that has been read

Each node of a program knows where it came from. The position is that of a token, and at that place
the text spells the node: a literal, a name, an operator, the `return` of a return, the `if` of a
link, the name of a function. Positions and values take different ways through the reader, so a
position could go astray without any effect on the tree; this is what rules it out.

## Main definitions

* `Node.Located` — a node whose position is that of a token, with its own text there.

## Main statements

* `Program.located_of_parse`.
-/
namespace ProcLang

/-- A node has the position of a token, and what stands there in the text spells the node. -/
def Program.Node.Located (source : String) (ts : List Token) (n : Program.Node) : Prop :=
  ∃ pos, n.pos = some pos ∧ (∃ t ∈ ts, t.pos = pos) ∧
    ∃ text, StandsAt source pos.offset pos.stop text ∧ n.WrittenAs text

namespace Program

/-- Every expression, every link of a conditional and every function of a program that has been read
from a text stands where the text spells it. -/
theorem located_of_parse {source : String} {ts : List Token} {p : Program}
    (hlex : lex source = .ok ts) (hparse : Program.parse ts = .ok p) :
    ∀ n ∈ p.nodes, n.Located source ts := by
  intro n hn
  obtain ⟨t, ht, hpos, hkind⟩ := standsAmong_of_parse hparse (fun t (ht : t ∈ ts) => ht) n hn
  obtain ⟨start, hfollows⟩ := exists_follows_of_lex hlex ht
  obtain ⟨text, hstands, hspelled⟩ := hfollows.spelled
  rw [hkind] at hspelled
  exact ⟨t.pos, hpos, ⟨t, ht, rfl⟩, text, hstands, Node.writtenAs_of_spelledBy hspelled⟩

/-- Operators that wait for others, a chain of conditionals, and a call of a function further
down. -/
def positionSample : String :=
  "f :: i32 a \x7b\nif a < 1 + g(2) * a \x7b i64 x = 3 \x7d\n" ++
    "else if true \x7b y := a \x7d\n\x7d\ng :: i32 b -> i32 \x7b return b \x7d"

theorem located_positionSample : ∃ ts p, lex positionSample = .ok ts ∧ Program.parse ts = .ok p ∧
    p.nodes.map (·.pos.map (·.offset)) = [0, 13, 18, 16, 22, 20, 29, 24, 26, 31, 35, 43, 52, 55, 62,
      67, 73, 93, 100].map some ∧ ∀ n ∈ p.nodes, n.Located positionSample ts := by
  have hread : ((lex positionSample).toOption.bind fun ts => (Program.parse ts).toOption).map
      (·.nodes.map (·.pos.map (·.offset))) = some ([0, 13, 18, 16, 22, 20, 29, 24, 26, 31, 35, 43,
        52, 55, 62, 67, 73, 93, 100].map some) := by decide +kernel
  cases hlex : lex positionSample with
  | error e => simp [hlex, Except.toOption] at hread
  | ok ts =>
    cases hparse : Program.parse ts with
    | error e => simp [hlex, hparse, Except.toOption] at hread
    | ok p =>
      simp only [hlex, hparse, Except.toOption, Option.bind_some, Option.map_some] at hread
      exact ⟨ts, p, rfl, hparse, Option.some.inj hread, located_of_parse hlex hparse⟩

end Program
end ProcLang

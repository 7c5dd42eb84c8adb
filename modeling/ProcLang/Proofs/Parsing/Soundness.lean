import ProcLang.Proofs.Parsing.Declarations
import ProcLang.Proofs.Parsing.Passes
import ProcLang.Proofs.Scope

/-!
# What is read is linked

Whatever the tokens are: if they can be read, then no function is read like a variable and every
call has as many arguments as the outline says. A tree is built from a stack of finished trees, and
whatever is on that stack is linked.

## Main statements

* `Expr.linked_of_parse`, `Stmt.linked_of_parse` — expressions and statements.
* `Program.exists_scan_of_parse` — programs, whose parameters the outline counts.
-/
namespace ProcLang

variable {o : Outline}

/-! ## Expressions -/

namespace Expr

theorem allLinked_iff {arity? : String → Option Nat} {es : List Expr} :
    AllLinked arity? es ↔ ∀ e ∈ es, e.Linked arity? := by
  induction es with
  | nil => simp [AllLinked]
  | cons e es ih => simp [AllLinked, ih]

/-- An item keeps the stack of finished subexpressions linked. -/
theorem linked_of_reduces {stack stack' : List Expr} {item : Item}
    (h : Reduces o stack item stack') (hs : ∀ e ∈ stack, e.Linked o.arity?) :
    ∀ e ∈ stack', e.Linked o.arity? := by
  cases h with
  | literal value pos => exact List.forall_mem_cons.mpr ⟨trivial, hs⟩
  | operator op lhs rhs pos =>
    obtain ⟨hr, hs⟩ := List.forall_mem_cons.mp hs
    obtain ⟨hl, hs⟩ := List.forall_mem_cons.mp hs
    exact List.forall_mem_cons.mpr ⟨⟨hl, hr⟩, hs⟩
  | var pos hname => exact List.forall_mem_cons.mpr ⟨hname, hs⟩
  | call args pos hname =>
    obtain ⟨hargs, hs⟩ := List.forall_mem_append.mp hs
    have hlinked : AllLinked o.arity? args :=
      allLinked_iff.mpr fun e he => hargs e (List.mem_reverse.mpr he)
    exact List.forall_mem_cons.mpr ⟨⟨hname, hlinked⟩, hs⟩

theorem linked_of_parse {ts : List Token} {e : Expr} (h : parse o ts = .ok e) :
    e.Linked o.arity? := by
  obtain ⟨items, -, hbuild⟩ := exists_build_of_parse h
  exact forall_of_build hbuild (fun _ _ _ _ hr hs => linked_of_reduces hr hs) (by simp) e
    List.mem_cons_self

end Expr

/-! ## Statements -/

namespace Stmt

theorem linked_expr {arity? : String → Option Nat} {e : Expr} (h : e.Linked arity?) :
    (Stmt.expr e).Linked arity? := by
  cases e with
  | «return» | assign => cases h
  | literal | var | binary | call => simpa [Linked] using h

theorem linked_of_parseValues {ts : List Token} {values : List Expr}
    (h : parseValues o ts = .ok values) : Expr.AllLinked o.arity? values := by
  unfold parseValues at h
  split at h
  · cases h
    trivial
  · refine Expr.allLinked_iff.mpr fun e he => ?_
    obtain ⟨us, -, hus⟩ := exists_of_forall₂ (mapM_eq_ok.mp h).flip he
    exact Expr.linked_of_parse hus

theorem linked_of_parseSimple {ts : List Token} {e : Expr} (h : parseSimple o ts = .ok e) :
    (Stmt.expr e).Linked o.arity? := by
  unfold parseSimple at h
  split at h
  · obtain ⟨values, hv, rfl⟩ := map_eq_ok.mp h
    simpa [Linked] using linked_of_parseValues hv
  · obtain ⟨value, hv, rfl⟩ := map_eq_ok.mp h
    simpa [Linked] using Expr.linked_of_parse hv
  · obtain ⟨value, hv, rfl⟩ := map_eq_ok.mp h
    simpa [Linked] using Expr.linked_of_parse hv
  · obtain ⟨value, hv, rfl⟩ := map_eq_ok.mp h
    simpa [Linked] using Expr.linked_of_parse hv
  · exact linked_expr (Expr.linked_of_parse h)

end Stmt

mutual

theorem Stmt.Reads.linked {ts : List Token} {ss : List Stmt} (h : Stmt.Reads o ts ss) :
    Stmt.AllLinked o.arity? ss := by
  match h with
  | .nil _ => trivial
  | .simple _ _ _ _ _ he hss => exact ⟨Stmt.linked_of_parseSimple he, hss.linked⟩
  | .branch _ _ hc hss => exact ⟨by simpa [Stmt.Linked] using hc.linked, hss.linked⟩

theorem Conditional.Reads.linked {pos : Position} {ts rest : List Token} {c : Conditional}
    (h : Conditional.Reads o pos ts c rest) : c.Linked o.arity? := by
  match h with
  | .mk _ _ _ hg _ hb ho => exact ⟨Expr.linked_of_parse hg, hb.linked, ho.linked⟩

theorem Otherwise.Reads.linked {ts rest : List Token} {other : Otherwise}
    (h : Otherwise.Reads o ts other rest) : other.Linked o.arity? := by
  match h with
  | .nothing _ => trivial
  | .block _ _ _ _ hb => exact hb.linked
  | .chain _ _ _ hc => exact hc.linked

end

theorem Stmt.linked_of_parse {ts : List Token} {ss : List Stmt} (h : Stmt.parse o ts = .ok ss) :
    Stmt.AllLinked o.arity? ss :=
  (Stmt.parse_eq_ok.mp h).linked

/-! ## Programs -/

open Outline in
/-- A program that has been read is linked, and its outline counts its parameters. -/
theorem Program.exists_scan_of_parse {ts : List Token} {p : Program}
    (h : Program.parse ts = .ok p) :
    ∃ o, Outline.scan ts = .ok o ∧ List.Forall₂ Entry.Notes o.entries p ∧
      (p.map (·.name)).Nodup ∧ p.Linked := by
  obtain ⟨ss, hss, hn, -, hall⟩ := Program.parse_eq_ok.mp h
  have hnotes := notes_entriesOf (hall.imp fun x d h => ⟨h.name, h.header⟩)
  refine ⟨⟨entriesOf ss⟩, scan_eq_ok.mpr ⟨ss, hss, rfl, hn⟩, hnotes, names_eq hnotes ▸ hn, ?_⟩
  intro d hd
  obtain ⟨x, -, hx⟩ := exists_of_forall₂ hall.flip hd
  rw [← arity?_eq hnotes]
  exact Stmt.linked_of_parse hx.body

end ProcLang

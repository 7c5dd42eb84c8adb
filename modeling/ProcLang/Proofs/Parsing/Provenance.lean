import ProcLang.Proofs.Parsing.Soundness
import ProcLang.Proofs.Source.Nodes

/-!
# Where what is read comes from

Positions go the same way as what they belong to: from the tokens through the stack of what waits
into the postfix order, and from there into the tree. So each node stands at the token that it was
read from. Nothing is asked of the tokens but that `P` holds of each of them, where `P` may be any
property; in the end it is that the token is one of a given list.

## Main statements

* `Expr.standsAmong_of_parse`, `Stmt.standsAmong_of_parse` — expressions and statements.
* `Program.standsAmong_of_parse` — programs.
-/
namespace ProcLang

variable {o : Outline} {P : Token → Prop}

/-! ## Expressions -/

namespace Expr

/-- The items of the postfix order were read from the tokens that were given. -/
theorem forall_of_postorder {ts : List Token} {items : List Item}
    (h : postorder o [] ts = .ok items) (ht : ∀ t ∈ ts, P t) : ∀ i ∈ items, P i.token := by
  obtain ⟨hperm, -, -⟩ := perm_of_postorder (.covered .nil) h
  intro i hi
  have hmem : i.token ∈ kept ts := by simpa [kept] using hperm.subset (List.mem_map_of_mem hi)
  exact ht _ (List.mem_of_mem_filter hmem)

/-- An item adds its own node to the nodes of the finished subexpressions. -/
theorem standsAmong_of_reduces {stack stack' : List Expr} {item : Item}
    (h : Reduces o stack item stack') (hi : P item.token)
    (hs : ∀ e ∈ stack, ∀ n ∈ e.nodes, n.StandsAmong P) :
    ∀ e ∈ stack', ∀ n ∈ e.nodes, n.StandsAmong P := by
  cases h with
  | literal value pos | var pos _ =>
    exact List.forall_mem_cons.mpr ⟨by simpa [nodes] using ⟨_, hi, rfl, rfl⟩, hs⟩
  | operator op lhs rhs pos =>
    obtain ⟨hr, hs⟩ := List.forall_mem_cons.mp hs
    obtain ⟨hl, hs⟩ := List.forall_mem_cons.mp hs
    refine List.forall_mem_cons.mpr ⟨?_, hs⟩
    rw [nodes]
    exact List.forall_mem_cons.mpr ⟨⟨_, hi, rfl, rfl⟩, List.forall_mem_append.mpr ⟨hl, hr⟩⟩
  | call args pos _ =>
    obtain ⟨hargs, hs⟩ := List.forall_mem_append.mp hs
    refine List.forall_mem_cons.mpr ⟨?_, hs⟩
    rw [nodes, nodesAll_eq]
    refine List.forall_mem_cons.mpr ⟨⟨_, hi, rfl, rfl⟩, fun n hn => ?_⟩
    obtain ⟨e, he, hn⟩ := List.mem_flatMap.mp hn
    exact hargs e (List.mem_reverse.mpr he) n hn

theorem standsAmong_of_parse {ts : List Token} {e : Expr} (h : parse o ts = .ok e)
    (ht : ∀ t ∈ ts, P t) : ∀ n ∈ e.nodes, n.StandsAmong P := by
  obtain ⟨items, hitems, hbuild⟩ := exists_build_of_parse h
  have hi := forall_of_postorder hitems ht
  exact forall_of_build hbuild (fun i hmem _ _ hr hs => standsAmong_of_reduces hr (hi i hmem) hs)
    (by simp) e List.mem_cons_self

end Expr

/-! ## Statements -/

/-- The parts between commas hold no other tokens. -/
theorem forall_of_mem_splitCommas {depth : Int} {ts : List Token} (ht : ∀ t ∈ ts, P t) :
    ∀ part ∈ splitCommas depth ts, ∀ t ∈ part, P t := by
  induction ts generalizing depth with
  | nil => simp [splitCommas]
  | cons u ts ih =>
    obtain ⟨hu, hts⟩ := List.forall_mem_cons.mp ht
    simp only [splitCommas]
    split
    · exact List.forall_mem_cons.mpr ⟨by simp, ih hts⟩
    · split
      next => simpa using hu
      next part parts hparts =>
        have hrest : ∀ q ∈ part :: parts, ∀ t ∈ q, P t := hparts ▸ ih hts
        obtain ⟨hpart, hparts⟩ := List.forall_mem_cons.mp hrest
        exact List.forall_mem_cons.mpr ⟨List.forall_mem_cons.mpr ⟨hu, hpart⟩, hparts⟩

/-- A block and what is behind it hold no other tokens. -/
theorem forall_of_splitBlock {depth : Nat} {ts body rest : List Token}
    (h : splitBlock depth ts = some (body, rest)) (ht : ∀ t ∈ ts, P t) :
    (∀ t ∈ body, P t) ∧ ∀ t ∈ rest, P t := by
  obtain ⟨close, rfl⟩ := exists_of_splitBlock h
  obtain ⟨hbody, hrest⟩ := List.forall_mem_append.mp ht
  exact ⟨hbody, (List.forall_mem_cons.mp hrest).2⟩

namespace Stmt

theorem standsAmong_of_parseValues {ts : List Token} {values : List Expr}
    (h : parseValues o ts = .ok values) (ht : ∀ t ∈ ts, P t) :
    ∀ n ∈ Expr.nodesAll values, n.StandsAmong P := by
  unfold parseValues at h
  split at h
  · cases h
    simp [Expr.nodesAll]
  · rw [Expr.nodesAll_eq]
    intro n hn
    obtain ⟨e, he, hn⟩ := List.mem_flatMap.mp hn
    obtain ⟨part, hpart, hparse⟩ := exists_of_forall₂ (mapM_eq_ok.mp h).flip he
    exact Expr.standsAmong_of_parse hparse (forall_of_mem_splitCommas ht part hpart) n hn

theorem standsAmong_assign {name : String} {ty : Option Ty} {value : Expr} {t : Token}
    {us : List Token} (h : Expr.parse o us = .ok value) (hu : ∀ u ∈ us, P u) (ht : P t)
    (hkind : t.kind = (Program.Node.expr (.assign name ty value (some t.pos))).mark) :
    ∀ n ∈ (Expr.assign name ty value (some t.pos)).nodes, n.StandsAmong P := by
  rw [Expr.nodes]
  exact List.forall_mem_cons.mpr ⟨⟨t, ht, rfl, hkind⟩, Expr.standsAmong_of_parse h hu⟩

theorem standsAmong_of_parseSimple {ts : List Token} {e : Expr} (h : parseSimple o ts = .ok e)
    (ht : ∀ t ∈ ts, P t) : ∀ n ∈ e.nodes, n.StandsAmong P := by
  unfold parseSimple at h
  split at h
  · obtain ⟨values, hv, rfl⟩ := map_eq_ok.mp h
    obtain ⟨hfirst, hrest⟩ := List.forall_mem_cons.mp ht
    rw [Expr.nodes]
    exact List.forall_mem_cons.mpr ⟨⟨_, hfirst, rfl, rfl⟩, standsAmong_of_parseValues hv hrest⟩
  · obtain ⟨value, hv, rfl⟩ := map_eq_ok.mp h
    simp only [List.forall_mem_cons] at ht
    exact standsAmong_assign hv ht.2.2 ht.1 rfl
  · obtain ⟨value, hv, rfl⟩ := map_eq_ok.mp h
    simp only [List.forall_mem_cons] at ht
    exact standsAmong_assign hv ht.2.2.2 ht.1 rfl
  · obtain ⟨value, hv, rfl⟩ := map_eq_ok.mp h
    simp only [List.forall_mem_cons] at ht
    exact standsAmong_assign hv ht.2.2.2 ht.1 rfl
  · exact Expr.standsAmong_of_parse h ht

end Stmt

mutual

theorem Stmt.Reads.standsAmong {ts : List Token} {ss : List Stmt} (h : Stmt.Reads o ts ss)
    (ht : ∀ t ∈ ts, P t) : ∀ n ∈ Stmt.nodesAll ss, n.StandsAmong P := by
  match h with
  | .nil _ => simp [Stmt.nodesAll]
  | @Stmt.Reads.simple _ gap line us t e ss _ _ _ _ _ he hss =>
    obtain ⟨-, ht⟩ := List.forall_mem_append.mp ht
    obtain ⟨hline, hus⟩ : (∀ u ∈ t :: line, P u) ∧ ∀ u ∈ us, P u :=
      List.forall_mem_append.mp (by simpa using ht)
    rw [Stmt.nodesAll]
    exact List.forall_mem_append.mpr
      ⟨Stmt.standsAmong_of_parseSimple he hline, hss.standsAmong hus⟩
  | .branch p _ hc hss =>
    obtain ⟨-, ht⟩ := List.forall_mem_append.mp ht
    obtain ⟨hif, ht⟩ := List.forall_mem_cons.mp ht
    obtain ⟨hnodes, hrest⟩ := hc.standsAmong hif ht
    rw [Stmt.nodesAll]
    exact List.forall_mem_append.mpr ⟨hnodes, hss.standsAmong hrest⟩

theorem Conditional.Reads.standsAmong {pos : Position} {ts rest : List Token} {c : Conditional}
    (h : Conditional.Reads o pos ts c rest) (hif : P ⟨.keyword .if, pos⟩) (ht : ∀ t ∈ ts, P t) :
    (∀ n ∈ c.nodes, n.StandsAmong P) ∧ ∀ t ∈ rest, P t := by
  match h with
  | .mk p l _ hg hs hb ho =>
    obtain ⟨hguard, ht⟩ := List.forall_mem_append.mp ht
    obtain ⟨-, ht⟩ := List.forall_mem_cons.mp ht
    obtain ⟨hblock, hbehind⟩ := forall_of_splitBlock hs ht
    obtain ⟨hother, hrest⟩ := ho.standsAmong hbehind
    have hvalue := Expr.standsAmong_of_parse hg fun t hmem => hguard t (List.mem_of_mem_filter hmem)
    refine ⟨?_, hrest⟩
    rw [Conditional.nodes]
    refine List.forall_mem_cons.mpr ⟨⟨_, hif, rfl, rfl⟩, List.forall_mem_append.mpr ⟨hvalue, ?_⟩⟩
    exact List.forall_mem_append.mpr ⟨hb.standsAmong hblock, hother⟩

theorem Otherwise.Reads.standsAmong {ts rest : List Token} {other : Otherwise}
    (h : Otherwise.Reads o ts other rest) (ht : ∀ t ∈ ts, P t) :
    (∀ n ∈ other.nodes, n.StandsAmong P) ∧ ∀ t ∈ rest, P t := by
  match h with
  | .nothing _ => exact ⟨by simp [Otherwise.nodes], ht⟩
  | .block _ p l hs hb =>
    obtain ⟨-, ht⟩ := List.forall_mem_append.mp ht
    simp only [List.forall_mem_cons] at ht
    obtain ⟨hblock, hrest⟩ := forall_of_splitBlock hs ht.2.2
    exact ⟨hb.standsAmong hblock, hrest⟩
  | .chain _ p q hc =>
    obtain ⟨-, ht⟩ := List.forall_mem_append.mp ht
    simp only [List.forall_mem_cons] at ht
    exact hc.standsAmong ht.2.1 ht.2.2

end

theorem Stmt.standsAmong_of_parse {ts : List Token} {ss : List Stmt}
    (h : Stmt.parse o ts = .ok ss) (ht : ∀ t ∈ ts, P t) :
    ∀ n ∈ Stmt.nodesAll ss, n.StandsAmong P :=
  (Stmt.parse_eq_ok.mp h).standsAmong ht

/-! ## Programs -/

namespace Outline

theorem Sections.forall_mem {Q : Token → Prop} {base : Nat} {ts : List Token}
    {ss : List (Nat × Section)} (h : Sections Q base ts ss) (ht : ∀ t ∈ ts, P t) :
    ∀ x ∈ ss, ∀ t ∈ x.2.tokens, P t := by
  induction h with
  | nil => simp
  | @cons base gap rest ss hg s h ih =>
    have hrest : ∀ t ∈ s.tokens ++ rest, P t := fun t hr => ht t (List.mem_append_right _ hr)
    refine List.forall_mem_cons.mpr ⟨fun t hs => hrest t (List.mem_append_left _ hs), ?_⟩
    exact ih fun t hr => hrest t (List.mem_append_right _ hr)

theorem Section.standsAmong_of_declares {s : Section} {d : Declaration} (h : s.Declares o d)
    (ht : ∀ t ∈ s.tokens, P t) : ∀ n ∈ d.nodes, n.StandsAmong P := by
  have hname : P ⟨.ident d.name, s.pos⟩ := by
    rw [h.name]
    exact ht _ List.mem_cons_self
  refine List.forall_mem_cons.mpr ⟨⟨_, hname, h.pos, rfl⟩, ?_⟩
  refine Stmt.standsAmong_of_parse h.body fun t hb => ht t ?_
  simp [Section.tokens, Section.behindName, hb]

end Outline

/-- Every node of a program stands at the token that it was read from. -/
theorem Program.standsAmong_of_parse {ts : List Token} {p : Program}
    (h : Program.parse ts = .ok p) (ht : ∀ t ∈ ts, P t) : ∀ n ∈ p.nodes, n.StandsAmong P := by
  obtain ⟨ss, hss, -, -, hall⟩ := Program.parse_eq_ok.mp h
  intro n hn
  obtain ⟨d, hd, hn⟩ := List.mem_flatMap.mp hn
  obtain ⟨x, hx, hdecl⟩ := exists_of_forall₂ hall.flip hd
  exact Outline.Section.standsAmong_of_declares hdecl (hss.forall_mem ht x hx) n hn

end ProcLang

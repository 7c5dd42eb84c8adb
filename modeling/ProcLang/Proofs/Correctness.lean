import ProcLang.Proofs.Lowering.Simulation

/-!
# Correctness of lowering

A program that can be lowered means the same before and after. Calls of its functions are compared
to each depth of nested calls: as evaluation of the bodies on one side and as structured runs of
their flows on the other. In the limit this is what the blocks of the module do.

## Main definitions

* `Declaration.Becomes` — the procedure of a declaration.

## Main statements

* `Declaration.Becomes.matches_eval` — functions, given calls.
* `Program.callsMatch` — calls to any depth.
* `Program.correct_of_lower`.
-/
namespace ProcLang

open IR (Activation Datum Flow Procedure Run)

variable {p : Program} {qs : List Procedure} {call : String → List Val → Eval (Option Val)}
  {call' : String → List Datum → Run (Option Datum)}

/-! ## Functions -/

namespace Represents

/-- Outside all bodies the names are those of the functions. -/
theorem start (hnames : (p.map (·.name)).Nodup) (n : Nat) (a : Activation) :
    Represents p n p.scopes .empty a := by
  intro name b hb
  obtain ⟨d, hd, rfl, rfl⟩ := Program.lookup?_scopes hb
  exact .function (Scopes.lookup?_global [] d.name) (find?_name hnames hd)

/-- Parameters are variables. -/
theorem bindParams {n : Nat} {S : Scopes Binding} {ρ : Scopes Val} {a : Activation}
    (h : Represents p n S ρ a) {params : List (String × Datum)} (hparams : a.params = params)
    {ps : List Param} {xs : List Val}
    (hxs : List.Forall₂ (fun q x => params.lookup q.name = some x.datum ∧ x.ty = q.ty) ps xs)
    (g : Flow) (k : Activation → Run (Option Datum)) :
    ∃ a', (Flow.bindParams n (ps.map fun q => (q.name, q.ty.lower)) g).run call' k a =
        g.run call' k a' ∧
      Represents p (n + ps.length) (S.bindParams n (ps.map fun q => (q.name, q.ty.lower)))
        (.bindArgs ps xs ρ) a' := by
  induction hxs generalizing n S ρ a with
  | nil => exact ⟨a, rfl, h⟩
  | @cons q x ps xs hq _ ih =>
    obtain ⟨hlookup, hty⟩ := hq
    have hw : Held n a ⟨.param q.name, q.ty.lower⟩ x := by
      refine ⟨?_, ?_, congrArg Ty.lower hty.symm⟩
      · intro k hk
        cases hk
      · simp [Activation.get, hparams, hlookup]
    obtain ⟨a₁, hrun, hg, h₁⟩ := h.bind hw q.name call'
    obtain ⟨a', heq, h'⟩ := ih h₁ (hg.params.trans hparams)
    refine ⟨a', ?_, ?_⟩
    · simp only [List.map_cons, Flow.bindParams, Flow.run, hrun, pure_bind]
      exact heq
    · rw [List.length_cons, Nat.add_comm ps.length 1, ← Nat.add_assoc]
      exact h'

end Represents

namespace Declaration

variable {d : Declaration} {S : Scopes Binding}

/-- `d.Becomes S q`: with the names of `S` in scope `d` becomes `q`. -/
def Becomes (S : Scopes Binding) (d : Declaration) (q : Procedure) : Prop :=
  ∃ g, d.HasFlow S g ∧ q = ⟨d.name, d.ret, d.irParams, g⟩

theorem eval_eq (d : Declaration) (xs : List Val) : d.eval p call xs =
    Stmt.evals p call d.returns.head? (.bindArgs d.params xs Scopes.empty.push) d.body >>=
      (·.andThen fun _ =>
        if d.returns.isEmpty then pure none else throw (.unreachable d.name)) := by
  unfold Declaration.eval
  refine congrArg _ (funext fun c => ?_)
  cases c <;> rfl

/-- The end of a function without a return. -/
theorem matches_fallOff (d : Declaration) (g : Flow) : Matches (Val.Returned d.returns.head?)
    (if d.returns.isEmpty then pure none else throw (.unreachable d.name))
    (⟨d.name, d.ret, d.irParams, g⟩ : Procedure).fallOff := by
  have hvoid : d.ret.isVoid = d.returns.isEmpty := by
    rw [d.ret_eq, Ty.isVoid_elim]
    cases d.returns <;> rfl
  change Matches _ _ (if d.ret.isVoid then pure none else throw (.unreachable d.name))
  rw [hvoid]
  cases d.returns with
  | nil => exact .pure ⟨rfl, rfl⟩
  | cons ty tys => exact .throw (.unreachable d.name)

/-- A function comes to what its procedure comes to. -/
theorem Becomes.matches_eval {q : Procedure} (h : d.Becomes p.scopes q)
    (hnames : (p.map (·.name)).Nodup) (hcall : CallsMatch p call call') {xs : List Val}
    (hxs : xs.map Val.ty = d.params.map (·.ty)) :
    Matches (Val.Returned d.returns.head?) (d.eval p call xs)
      (q.flow.run call' (fun _ => q.fallOff) (.start q.function (xs.map Val.datum))) := by
  obtain ⟨_, ⟨hparams, g, S', n', hg, rfl⟩, rfl⟩ := h
  have htys : List.Forall₂ (fun q x => x.ty = q.ty) d.params xs := by
    have := List.forall₂_eq_eq_eq ▸ hxs
    exact (List.forall₂_map_left_iff.mp (List.forall₂_map_right_iff.mp this)).flip
  generalize hq : (⟨d.name, d.ret, d.irParams, .bindParams 0 d.irParams g⟩ : Procedure) = q
  have hstart : (Activation.start q.function (xs.map Val.datum)).params =
      (d.params.map (·.name)).zip (xs.map Val.datum) := by
    rw [← hq]
    change (d.irParams.map Prod.fst).zip _ = _
    rw [irParams, List.map_map]
    rfl
  have hflow : q.flow = .bindParams 0 (d.params.map fun q => (q.name, q.ty.lower)) g := by
    rw [← hq]
    rfl
  obtain ⟨a, hrun, hS⟩ := (Represents.start hnames 0 _).push.bindParams hstart
    (lookup_name hparams htys Val.datum) g (fun _ => q.fallOff)
  rw [hflow, hrun, eval_eq]
  rw [Nat.zero_add] at hS
  refine hg.matches_evals hcall d.ret_eq hS fun _ _ _ _ => ?_
  rw [← hq]
  exact d.matches_fallOff _

end Declaration

/-! ## Programs -/

theorem Declaration.exists_becomes {S : Scopes Binding} {ds : List Declaration}
    {fs : List IR.Function} (h : List.Forall₂ (·.LowersTo S) ds fs) :
    ∃ qs : List Procedure, fs = qs.map Procedure.function ∧ List.Forall₂ (·.Becomes S) ds qs := by
  induction h with
  | nil => exact ⟨[], rfl, .nil⟩
  | cons hd _ ih =>
    obtain ⟨g, hg, rfl⟩ := hd
    obtain ⟨qs, rfl, hqs⟩ := ih
    exact ⟨_ :: qs, rfl, .cons ⟨g, hg, rfl⟩ hqs⟩

/-- The procedure of a name is that of the declaration of the name. -/
theorem Declaration.find?_becomes {S : Scopes Binding} {ds : List Declaration}
    (h : List.Forall₂ (·.Becomes S) ds qs) {name : String} {d : Declaration}
    (hd : ds.find? (·.name == name) = some d) :
    ∃ q, qs.find? (·.name == name) = some q ∧ d.Becomes S q := by
  induction h with
  | nil => cases hd
  | @cons d' q ds qs hq _ ih =>
    have hname : q.name = d'.name := by
      obtain ⟨g, -, rfl⟩ := hq
      rfl
    rw [List.find?_cons] at hd ⊢
    rw [hname]
    split at hd
    · cases hd
      exact ⟨q, rfl, hq⟩
    · exact ih hd

/-- Calls of functions of a program, given calls in them. -/
theorem CallsMatch.callWith (hnames : (p.map (·.name)).Nodup)
    (hqs : List.Forall₂ (·.Becomes p.scopes) p qs) (hcall : CallsMatch p call call') :
    CallsMatch p (p.callWith call) (Procedure.callWith qs call') := by
  intro d hd xs hxs
  have hfind := find?_name hnames hd
  obtain ⟨q, hq, hbecomes⟩ := Declaration.find?_becomes hqs hfind
  simp only [Program.callWith, Procedure.callWith, hfind, hq, Eval.ofOption, pure_bind]
  exact hbecomes.matches_eval hnames hcall hxs

/-- Calls to any depth. -/
theorem Program.callsMatch (hnames : (p.map (·.name)).Nodup)
    (hqs : List.Forall₂ (·.Becomes p.scopes) p qs) (depth : Nat) :
    CallsMatch p (p.eval depth) (Procedure.calls qs depth) := by
  induction depth with
  | zero => exact CallsMatch.callWith hnames hqs fun _ _ _ _ => .none
  | succ depth ih => exact ih.callWith hnames hqs

/-- What fits parameters stands for values of their types. -/
theorem Val.exists_data {tys : List Ty} {args : List Datum}
    (h : List.Forall₂ Datum.Canonical (tys.map Ty.lower) args) :
    ∃ xs : List Val, xs.map Val.ty = tys ∧ xs.map Val.datum = args := by
  induction tys generalizing args with
  | nil =>
    cases h
    exact ⟨[], rfl, rfl⟩
  | cons ty tys ih =>
    cases h with
    | cons hd hds =>
      obtain ⟨x, rfl, rfl⟩ := canonical_iff.mp hd
      obtain ⟨xs, rfl, rfl⟩ := ih hds
      exact ⟨x :: xs, rfl, rfl⟩

/-- Lowering is correct. A call of a function with values of its parameters' types comes to the same
when the program is evaluated and when its module is run: to the same value, to nothing, to the same
failure, or to no outcome at all. -/
theorem Program.correct_of_lower {name : String} {m : IR.Module} (h : p.lower name = .ok m)
    {d : Declaration} (hd : d ∈ p) {args : List Datum}
    (hargs : List.Forall₂ Datum.Canonical (d.params.map (·.ty.lower)) args) :
    ∃ xs : List Val, xs.map Val.ty = d.params.map (·.ty) ∧ xs.map Val.datum = args ∧
      (∀ depth o, (p.eval depth d.name xs).run = some o →
        ∃ r, Agree (Val.Returned d.returns.head?) o r ∧
          ∃ fuel, ∀ k ≥ fuel, (m.run k d.name args).run = some r) ∧
      ∀ fuel r, (m.run fuel d.name args).run = some r →
        ∃ o, Agree (Val.Returned d.returns.head?) o r ∧
          ∀ depth ≥ fuel, (p.eval depth d.name xs).run = some o := by
  obtain ⟨hnames, hall⟩ := lowersTo_of_lower h
  obtain ⟨qs, hqs, hbecomes⟩ := Declaration.exists_becomes hall
  obtain ⟨xs, hxs, rfl⟩ : ∃ xs : List Val, xs.map Val.ty = d.params.map (·.ty) ∧
      xs.map Val.datum = args := Val.exists_data (by simpa using hargs)
  have hmatch depth := callsMatch hnames hbecomes depth d hd xs hxs
  refine ⟨xs, hxs, rfl, ?_, ?_⟩
  · intro depth o ho
    obtain ⟨r, hr, hagree⟩ := (hmatch depth).exists_right ho
    exact ⟨r, hagree, Procedure.run_of_calls hqs depth d.name _ r hr⟩
  · intro fuel r hr
    have hcalls depth (hle : fuel ≤ depth) :=
      Procedure.calls_of_run hqs depth d.name _ fuel hle r hr
    obtain ⟨o, ho, hagree⟩ := (hmatch fuel).exists_left (hcalls fuel (Nat.le_refl fuel))
    refine ⟨o, hagree, fun depth hle => ?_⟩
    obtain ⟨o', ho', hagree'⟩ := (hmatch depth).exists_left (hcalls depth hle)
    rwa [Val.eq_of_agree hagree hagree']

/-- The sample, called with the largest integer of 32 bits. -/
theorem Program.correct_sample : ∃ m, sample.lower "sample" = .ok m ∧ ∃ d ∈ sample,
    List.Forall₂ Datum.Canonical (d.params.map (·.ty.lower)) [.int 2147483647, .bool true] ∧
    ∃ xs : List Val, xs.map Val.ty = d.params.map (·.ty) ∧
      xs.map Val.datum = [.int 2147483647, .bool true] ∧
      (∀ depth o, (sample.eval depth d.name xs).run = some o →
        ∃ r, Agree (Val.Returned d.returns.head?) o r ∧
          ∃ fuel, ∀ k ≥ fuel, (m.run k d.name [.int 2147483647, .bool true]).run = some r) ∧
      ∀ fuel r, (m.run fuel d.name [.int 2147483647, .bool true]).run = some r →
        ∃ o, Agree (Val.Returned d.returns.head?) o r ∧
          ∀ depth ≥ fuel, (sample.eval depth d.name xs).run = some o := by
  obtain ⟨m, hm⟩ := Program.exists_lower_sample
  have hargs : List.Forall₂ Datum.Canonical [.i32, .i1] [.int 2147483647, .bool true] :=
    .cons (by simp only [Datum.Canonical]; decide) (.cons trivial .nil)
  exact ⟨m, hm, _, List.mem_cons_self, hargs, correct_of_lower hm List.mem_cons_self hargs⟩

end ProcLang

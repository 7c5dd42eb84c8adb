import ProcLang.Proofs.IR.Change

/-!
# Code in the order in which it was added

Instructions are added one at a time, each to any block that is open. While a function is being
built its blocks need not have ended, so that no path through them tells what comes before what.
The order in which the instructions were added does: each one refers only to temporaries that have
been defined before it.

## Main definitions

* `Function.Knows` — the function defines a value, if that is a temporary.
* `Function.History` — all instructions of a function in the order in which they were added.
* `Function.Evolves` — changes that a history can be kept of.
-/
namespace ProcLang.IR

/-- The instructions define the value, if it is a temporary. -/
def Value.KnownTo (is : List Instr) (v : Value) : Prop :=
  ∀ n, v.kind = .temp n → ∃ i ∈ is, i.result = some v

theorem Value.KnownTo.mono {v : Value} {is is' : List Instr} (h : v.KnownTo is) (hs : is ⊆ is') :
    v.KnownTo is' := by
  intro n hn
  obtain ⟨i, hi, hv⟩ := h n hn
  exact ⟨i, hs hi, hv⟩

namespace Function

/-- The function defines the value, if it is a temporary. -/
def Knows (f : Function) (v : Value) : Prop := v.KnownTo (f.blocks.flatMap (·.instrs))

/-- `f.History log`: the instructions of `f` are those of `log`, which has them in the order in
which they were added. Each refers only to temporaries that have been defined before it. -/
structure History (f : Function) (log : List Instr) : Prop where
  all : log.Perm (f.blocks.flatMap (·.instrs))
  /-- Within a block the order is that of the block. -/
  ordered : ∀ b ∈ f.blocks, b.instrs.Sublist log
  /-- Temporaries are numbered in the order in which they are defined. -/
  numbered : definedBy log = (List.range f.temps).map .temp
  operands : ∀ before i after, log = before ++ i :: after → ∀ v ∈ i.op.operands, v.KnownTo before
  ends : ∀ b ∈ f.blocks, ∀ t, b.terminator = some t → ∀ v ∈ t.operands, v.KnownTo log

/-- `f.Evolves f'`: `f'` has come about from `f` by changes that a history can be kept of, and none
of them takes the definition of a value away. -/
structure Evolves (f f' : Function) : Prop where
  history : ∀ {log}, f.History log → ∃ log', f'.History log'
  knows : ∀ {v}, f.Knows v → f'.Knows v

variable {f f' : Function} {b : Nat} {log : List Instr} {v : Value}

theorem knows_const (f : Function) {c : Literal} (h : v.kind = .const c) : f.Knows v := by
  intro n hn
  rw [h] at hn
  cases hn

theorem knows_param (f : Function) (name : String) (ty : Ty) : f.Knows ⟨.param name, ty⟩ := by
  intro n hn
  cases hn

theorem Evolves.refl (f : Function) : f.Evolves f := ⟨fun h => ⟨_, h⟩, id⟩

/-! ## Steps -/

theorem History.extend (h : f.History log) (base : String) : (f.extend base).History log where
  all := by simpa [Function.extend, Block.empty] using h.all
  ordered := by
    intro c hc
    rcases List.mem_append.mp hc with hc | hc
    · exact h.ordered c hc
    · obtain rfl := List.mem_singleton.mp hc
      exact List.nil_sublist log
  numbered := h.numbered
  operands := h.operands
  ends := by
    intro c hc t ht
    rcases List.mem_append.mp hc with hc | hc
    · exact h.ends c hc t ht
    · obtain rfl := List.mem_singleton.mp hc
      cases ht

/-- An instruction that refers to what is known comes last. -/
theorem History.emit (h : f.History log) (ho : f.Open b) {i : Instr}
    (hop : ∀ v ∈ i.op.operands, f.Knows v)
    (hresult : definedBy [i] = (List.range' f.temps (results [i])).map .temp) :
    (f.emit b [i]).History (log ++ [i]) where
  all := by
    obtain ⟨block, hb, -⟩ := ho
    exact (h.all.append_right [i]).trans (flatMap_instrs_append hb [i]).symm
  ordered := by
    intro c hc
    obtain ⟨c', hc', rfl | rfl⟩ := mem_modify hc
    · exact (h.ordered _ hc').trans (List.sublist_append_left log [i])
    · exact (h.ordered c' hc').append (.refl [i])
  numbered := by
    rw [definedBy_append, h.numbered, hresult, ← List.map_append, List.range_eq_range']
    congr 1
    rw [Function.emit, List.range_eq_range', ← List.range'_append_1, Nat.zero_add]
  operands := by
    intro before j after heq
    rcases List.eq_nil_or_concat after with rfl | ⟨after, k, rfl⟩
    · obtain ⟨rfl, hij⟩ := List.append_inj' heq rfl
      obtain rfl : i = j := by simpa using hij
      exact fun v hv => (hop v hv).mono h.all.symm.subset
    · rw [List.concat_eq_append, ← List.cons_append, ← List.append_assoc] at heq
      exact h.operands before j after (List.append_inj' heq rfl).1
  ends := by
    intro c hc t ht v hv
    obtain ⟨c', hc', rfl | rfl⟩ := mem_modify hc
    · exact (h.ends _ hc' t ht v hv).mono (List.subset_append_left log [i])
    · exact (h.ends c' hc' t ht v hv).mono (List.subset_append_left log [i])

theorem History.finish (h : f.History log) {t : Terminator} (ht : ∀ v ∈ t.operands, f.Knows v) :
    (f.finish b t).History log where
  all := by
    rw [Function.finish, flatMap_instrs_ended]
    exact h.all
  ordered := by
    intro c hc
    obtain ⟨c', hc', rfl | rfl⟩ := mem_modify hc
    · exact h.ordered _ hc'
    · exact h.ordered c' hc'
  numbered := h.numbered
  operands := h.operands
  ends := by
    intro c hc t' ht'
    obtain ⟨c', hc', rfl | rfl⟩ := mem_modify hc
    · exact h.ends _ hc' t' ht'
    · cases ht'
      exact fun v hv => (ht v hv).mono h.all.symm.subset

theorem history_of_nil (h : f.blocks = []) (ht : f.temps = 0) : f.History [] where
  all := by simp [h]
  ordered := by simp [h]
  numbered := by simp [ht, definedBy]
  operands := by simp
  ends := by simp [h]

/-! ## Operations -/

theorem evolves_extend (f : Function) (base : String) : f.Evolves (f.extend base) := by
  refine ⟨fun h => ⟨_, h.extend base⟩, fun hv => hv.mono ?_⟩
  simp [extend]

theorem evolves_entry (f : Function) : f.Evolves f.entry := by
  rcases entry_eq f with h | ⟨-, h⟩
  · rw [h]
    exact .refl f
  · rw [h]
    exact evolves_extend f _

theorem Evolves.trans {f'' : Function} (h : f.Evolves f') (h' : f'.Evolves f'') :
    f.Evolves f'' := by
  refine ⟨fun hlog => ?_, fun hv => h'.knows (h.knows hv)⟩
  obtain ⟨log', hlog'⟩ := h.history hlog
  exact h'.history hlog'

theorem evolves_addBlock (f : Function) (label : String) : f.Evolves (f.addBlock label).2 :=
  (evolves_entry f).trans (evolves_extend f.entry label)

theorem evolves_emit (ho : f.Open b) {i : Instr} (hop : ∀ v ∈ i.op.operands, f.Knows v)
    (hresult : definedBy [i] = (List.range' f.temps (results [i])).map .temp) :
    f.Evolves (f.emit b [i]) := by
  refine ⟨fun h => ⟨_, h.emit ho hop hresult⟩, fun hv => hv.mono ?_⟩
  obtain ⟨block, hb, -⟩ := ho
  have hperm := flatMap_instrs_append hb [i]
  exact List.Subset.trans (List.subset_append_left _ [i]) hperm.symm.subset

theorem evolves_of_define {ty : Ty} {op : Operation} (h : f.define b ty op = .ok (v, f'))
    (hop : ∀ w ∈ op.operands, f.Knows w) : f.Evolves f' ∧ f'.Knows v := by
  obtain ⟨ho, rfl, rfl⟩ := define_eq_ok.mp h
  refine ⟨evolves_emit ho hop rfl, ?_⟩
  obtain ⟨block, hb, -⟩ := ho
  have hperm := flatMap_instrs_append hb [⟨some ⟨.temp f.temps, ty⟩, op⟩]
  exact fun _ _ => ⟨_, hperm.symm.subset (List.mem_append_right _ List.mem_cons_self), rfl⟩

theorem evolves_of_perform {op : Operation} (h : f.perform b op = .ok f')
    (hop : ∀ w ∈ op.operands, f.Knows w) : f.Evolves f' := by
  obtain ⟨ho, rfl⟩ := perform_eq_ok.mp h
  exact evolves_emit ho hop rfl

theorem evolves_of_terminate {t : Terminator} (h : f.terminate b t = .ok f')
    (ht : ∀ w ∈ t.operands, f.Knows w) : f.Evolves f' := by
  obtain ⟨-, rfl⟩ := terminate_eq_ok.mp h
  refine ⟨fun h => ⟨_, h.finish ht⟩, fun hv => ?_⟩
  rw [Knows, finish, flatMap_instrs_ended]
  exact hv

theorem evolves_of_load {ptr : Value} (h : f.load b ptr = .ok (v, f')) (hptr : f.Knows ptr) :
    f.Evolves f' ∧ f'.Knows v := by
  obtain ⟨ty, -, hd⟩ := load_ok h
  exact evolves_of_define hd (by simpa [Operation.operands] using hptr)

theorem evolves_of_store {ptr : Value} (h : f.store b v ptr = .ok f') (hv : f.Knows v)
    (hptr : f.Knows ptr) : f.Evolves f' :=
  evolves_of_perform (store_ok h).2 (by simpa [Operation.operands] using ⟨hv, hptr⟩)

theorem evolves_of_compare {op : Relation} {l r : Value} (h : f.compare b op l r = .ok (v, f'))
    (hl : f.Knows l) (hr : f.Knows r) : f.Evolves f' ∧ f'.Knows v :=
  evolves_of_define (compare_ok h).2.2 (by simpa [Operation.operands] using ⟨hl, hr⟩)

theorem evolves_of_call {sig : Signature} {args : List Value} {r : Option Value}
    (h : f.call b sig args = .ok (r, f')) (hargs : ∀ v ∈ args, f.Knows v) :
    f.Evolves f' ∧ ∀ v ∈ r, f'.Knows v := by
  obtain ⟨-, rfl, hp⟩ | ⟨-, w, rfl, hd⟩ := call_ok h
  · exact ⟨evolves_of_perform hp hargs, by simp⟩
  · obtain ⟨hf, hw⟩ := evolves_of_define hd hargs
    exact ⟨hf, by simpa using hw⟩

theorem evolves_of_br {target : Nat} (h : f.br b target = .ok f') : f.Evolves f' := by
  unfold br at h
  cases hb : f.block target with
  | error e => simp [hb] at h
  | ok block =>
    rw [hb] at h
    exact evolves_of_terminate h (by simp [Terminator.operands])

theorem evolves_of_condBr {cond : Value} {yes no : Nat} (h : f.condBr b cond yes no = .ok f')
    (hcond : f.Knows cond) : f.Evolves f' := by
  unfold condBr at h
  split at h
  · split at h
    · cases h
    · split at h
      · cases h
      · exact evolves_of_terminate h (by simpa [Terminator.operands] using hcond)
  · cases h

theorem evolves_of_retValue (h : f.retValue b v = .ok f') (hv : f.Knows v) : f.Evolves f' := by
  unfold retValue at h
  split at h
  · exact evolves_of_terminate h (by simpa [Terminator.operands] using hv)
  · cases h

theorem evolves_of_retVoid (h : f.retVoid b = .ok f') : f.Evolves f' := by
  unfold retVoid at h
  split at h
  · exact evolves_of_terminate h (by simp [Terminator.operands])
  · cases h

end Function
end ProcLang.IR

import Mathlib.Data.List.Nodup
import Mathlib.Logic.Relation
import ProcLang.Proofs.ControlFlow

/-!
# Runs that end

A run goes on for ever only if it comes back to where it was. Branches never lead back inside of a
function. If no function comes back to itself by calls either, every run ends, with a value or with
a fault, and one unit of fuel for each block of the module is enough.

## Main definitions

* `Nonrecursive` — calls that never lead from a name back to it.
* `Module.Calls` — which functions of a module call which.
* `Settles` — runs that come to the same end with enough fuel, however much.
* `Function.Ranks` — numbers of blocks that go down along branches.

## Main statements

* `Function.WellBranched.length_trace_le` — a run of a function enters at most as many blocks as the
  function has.
* `Module.settles_run` — runs of modules without recursion settle.
-/
namespace ProcLang

/-- No name leads back to itself. -/
def Nonrecursive (calls : String → String → Prop) : Prop :=
  ∀ name, ¬ Relation.TransGen calls name name

namespace Nonrecursive

variable {calls calls' : String → String → Prop}

theorem mono (hsub : ∀ {name name'}, calls name name' → calls' name name')
    (h : Nonrecursive calls') : Nonrecursive calls := by
  intro name hname
  exact h name (Relation.TransGen.mono (fun _ _ => hsub) name name hname)

/-- Names can be numbered so that numbers go down along calls. -/
theorem of_rank (rank : String → Nat)
    (h : ∀ {name name'}, calls name name' → rank name' < rank name) : Nonrecursive calls := by
  have hlt : ∀ {name name'}, Relation.TransGen calls name name' → rank name' < rank name := by
    intro name name' hname
    induction hname with
    | single hcall => exact h hcall
    | tail _ hcall ih => exact Nat.lt_trans (h hcall) ih
  exact fun name hname => Nat.lt_irrefl _ (hlt hname)

end Nonrecursive

namespace IR

/-! ## Calls -/

/-- The function that an operation calls. -/
def Operation.callee? : Operation → Option String
  | .call function _ _ => some function
  | _ => none

/-- The functions that instructions call. -/
def callees (is : List Instr) : List String := is.filterMap (·.op.callee?)

@[simp, grind =] theorem callees_nil : callees [] = [] := rfl

@[simp, grind =] theorem callees_cons (i : Instr) (is : List Instr) :
    callees (i :: is) = i.op.callee?.toList ++ callees is := by
  cases h : i.op.callee? <;> simp [callees, h]

@[simp, grind =] theorem callees_append (is is' : List Instr) :
    callees (is ++ is') = callees is ++ callees is' := List.filterMap_append

/-- The functions that a function calls. -/
def Function.callees (f : Function) : List String := IR.callees (f.blocks.flatMap (·.instrs))

theorem Function.mem_callees {f : Function} {b : Block} (hb : b ∈ f.blocks) {name : String}
    (h : name ∈ IR.callees b.instrs) : name ∈ f.callees := by
  obtain ⟨i, hi, hname⟩ := List.mem_filterMap.mp h
  exact List.mem_filterMap.mpr ⟨i, List.mem_flatMap.mpr ⟨b, hb, hi⟩, hname⟩

/-- `m.Calls caller callee`: a function `caller` of `m` has a call of `callee`. -/
def Module.Calls (m : Module) (caller callee : String) : Prop :=
  ∃ f ∈ m.functions, f.name = caller ∧ callee ∈ f.callees

/-- How many blocks functions have together. -/
def blockCount (fs : List Function) : Nat := (fs.flatMap (·.blocks)).length

/-! ## Enough fuel -/

/-- Runs that come to the same end with `bound` units of fuel and with any more. -/
def Settles {α : Type} (bound : Nat) (x : Nat → Run α) : Prop :=
  ∃ r, ∀ fuel ≥ bound, (x fuel).run = some r

namespace Settles

variable {α β : Type} {bound : Nat}

theorem ofExcept (r : Except Fault α) : Settles bound fun _ => Run.ofExcept r :=
  ⟨r, fun _ _ => rfl⟩

theorem seq {x : Nat → Run α} {k : Nat → α → Run β} (hx : Settles bound x)
    (hk : ∀ a, Settles bound fun fuel => k fuel a) :
    Settles bound fun fuel => x fuel >>= k fuel := by
  obtain ⟨r, hx⟩ := hx
  cases r with
  | error e =>
    refine ⟨.error e, fun fuel hfuel => ?_⟩
    exact Run.seq_eq_some.mpr (.inr ⟨e, hx fuel hfuel, rfl⟩)
  | ok a =>
    obtain ⟨r, hk⟩ := hk a
    refine ⟨r, fun fuel hfuel => ?_⟩
    exact Run.seq_eq_some.mpr (.inl ⟨a, hx fuel hfuel, hk fuel hfuel⟩)

theorem mono {bound' : Nat} {x : Nat → Run α} (hle : bound ≤ bound') (h : Settles bound x) :
    Settles bound' x := by
  obtain ⟨r, h⟩ := h
  exact ⟨r, fun fuel hfuel => h fuel (Nat.le_trans hle hfuel)⟩

theorem succ {x : Nat → Run α} (h : Settles bound fun fuel => x (fuel + 1)) :
    Settles (bound + 1) x := by
  obtain ⟨r, h⟩ := h
  refine ⟨r, fun fuel hfuel => ?_⟩
  obtain ⟨fuel, rfl⟩ : ∃ k, fuel = k + 1 := ⟨fuel - 1, by omega⟩
  exact h fuel (by omega)

section Instructions

variable {call : Nat → String → List Datum → Run (Option Datum)}

theorem operation {op : Operation}
    (hcall : ∀ name, op.callee? = some name → ∀ ds, Settles bound fun fuel => call fuel name ds)
    (a : Activation) : Settles bound fun fuel => op.run (call fuel) a := by
  cases op with
  | alloca => exact .ofExcept (.ok _)
  | load | store | arith | compare | cast => exact .seq (.ofExcept _) fun _ => .ofExcept (.ok _)
  | call function ty args =>
    refine .seq (.ofExcept _) fun ds => ?_
    exact .seq (hcall function rfl ds) fun d => .ofExcept (.ok (d, a))

/-- Instructions settle if the calls in them do. -/
theorem instrs {is : List Instr}
    (hcall : ∀ name ∈ callees is, ∀ ds, Settles bound fun fuel => call fuel name ds)
    (a : Activation) : Settles bound fun fuel => runInstrs (call fuel) a is := by
  induction is generalizing a with
  | nil => exact .ofExcept (.ok a)
  | cons i is ih =>
    rw [callees_cons] at hcall
    refine .seq (.operation (fun name hname => hcall name ?_) a) fun r =>
      ih (fun name hname => ?_) _
    · exact List.mem_append_left _ (by simp [hname])
    · exact hcall name (List.mem_append_right _ hname)

end Instructions

/-- The end of a block settles if the blocks do that it may go on to. -/
theorem leave {m : Module} {f : Function} {b : Block} {a : Activation}
    (hnext : ∀ l ∈ b.targets, ∀ next, f.blockOf? l = some next →
      Settles bound fun fuel => m.runFrom fuel f a next) :
    Settles bound fun fuel => m.leave fuel f a b.terminator := by
  rw [Block.targets] at hnext
  cases ht : b.terminator with
  | none => exact .ofExcept (.error .missingTerminator)
  | some t =>
    rw [ht] at hnext
    simp only [Module.leave]
    cases hexit : t.run f.name a with
    | error e => exact .ofExcept (.error e)
    | ok exit =>
      simp only [Run.ofExcept_ok_seq]
      cases exit with
      | returned d => exact .ofExcept (.ok d)
      | jump label =>
        simp only
        cases hblock : f.blockOf? label with
        | none => exact .ofExcept (.error .missingBlock)
        | some next => exact hnext label (Terminator.mem_targets_of_run hexit) next hblock

end Settles

/-! ## Blocks that go forward -/

/-- Blocks are numbered so that the numbers go down along branches. -/
structure Function.Ranks (f : Function) (rank : Block → Nat) : Prop where
  lt : ∀ b ∈ f.blocks, rank b < f.blocks.length
  descends : ∀ b ∈ f.blocks, ∀ l ∈ b.targets, ∀ next, f.blockOf? l = some next → rank next < rank b

namespace Function.WellBranched

variable {f : Function}

/-- The rank of a block is the number of blocks that stand behind it in the order. -/
theorem exists_ranks (h : f.WellBranched) : ∃ rank, f.Ranks rank := by
  obtain ⟨bs, hperm, hbs⟩ := h.order
  have hnodup : bs.Nodup := hperm.nodup_iff.mpr (.of_map _ h.labels)
  refine ⟨fun b => bs.length - (bs.idxOf b + 1), fun b hb => ?_, fun b hb l hl next hnext => ?_⟩
  · have := List.idxOf_lt_length_iff.mpr (hperm.mem_iff.mpr hb)
    have := hperm.length_eq
    omega
  · obtain ⟨before, after, rfl, hbefore⟩ := List.eq_append_cons_of_mem (hperm.mem_iff.mpr hb)
    obtain ⟨b', hb', rfl⟩ := hbs before b after rfl l hl
    have hmem : b' ∈ f.blocks := hperm.mem_iff.mp (by simp [hb'])
    obtain rfl := eq_of_blockOf? h.labels hmem hnext
    have hlater : next ∉ before ∧ next ≠ b := by grind
    rw [List.idxOf_append_of_notMem hbefore, List.idxOf_append_of_notMem hlater.1,
      List.idxOf_cons_self, List.idxOf_cons_ne _ hlater.2.symm]
    have := List.idxOf_lt_length_iff.mpr hb'
    simp only [List.length_append, List.length_cons]
    omega

theorem length_trace_le (h : f.WellBranched) (m : Module) (fuel : Nat) (a : Activation) {b : Block}
    (hb : b ∈ f.blocks) : (m.trace fuel f a b).length ≤ f.blocks.length := by
  obtain ⟨bs, hperm, hbs⟩ := h.order
  obtain ⟨before, after, hsplit⟩ := List.append_of_mem (hperm.mem_iff.mpr hb)
  have hle := (m.trace_sublist h.labels hperm hbs fuel a hsplit).length_le
  rw [← hperm.length_eq, hsplit]
  simp only [List.length_map, List.length_append, List.length_cons] at hle ⊢
  omega

end Function.WellBranched

/-! ## Modules -/

namespace Module

variable {m : Module}

theorem start?_eq_ok {name : String} {f : Function} {b : Block} (h : m.start? name = .ok (f, b)) :
    f ∈ m.functions ∧ f.name = name ∧ b ∈ f.blocks := by
  rw [start?] at h
  cases hf : m.functions.find? (·.name == name) with
  | none => simp [hf] at h
  | some g =>
    simp only [hf] at h
    cases hb : g.blocks with
    | nil => simp [hb] at h
    | cons entry bs =>
      simp only [hb] at h
      cases h
      exact ⟨List.mem_of_find?_eq_some hf, by simpa using List.find?_some hf, by simp [hb]⟩

/-- A run from a block on settles if the calls of its function do. -/
theorem settles_runFrom {f : Function} {rank : Block → Nat} (hrank : f.Ranks rank) {bound : Nat}
    (hcall : ∀ name ∈ f.callees, ∀ ds, Settles bound fun fuel => m.run fuel name ds) {b : Block}
    (hb : b ∈ f.blocks) (a : Activation) :
    Settles (bound + rank b + 1) fun fuel => m.runFrom fuel f a b := by
  induction hr : rank b using Nat.strongRecOn generalizing b a with
  | _ r ih =>
    apply Settles.succ
    simp only [runFrom_succ]
    refine .seq (.instrs (fun name hname ds => ?_) a) fun a => .leave fun l hl next hnext => ?_
    · exact (hcall name (Function.mem_callees hb hname) ds).mono (by omega)
    · have hlt := hrank.descends b hb l hl next hnext
      exact (ih _ (hr ▸ hlt) (List.mem_of_find?_eq_some hnext) a rfl).mono (by omega)

/-- Every function of `m` that calls lead to from `name` on is one of `fs`. -/
def ReachesOnly (m : Module) (name : String) (fs : List Function) : Prop :=
  ∀ f ∈ m.functions, Relation.ReflTransGen m.Calls name f.name → f ∈ fs

/-- Without recursion the functions that a function calls do not lead back to it. -/
theorem ReachesOnly.callee (hm : Nonrecursive m.Calls) {f : Function} (hf : f ∈ m.functions)
    {fs fs' : List Function} (h : m.ReachesOnly f.name (fs ++ f :: fs')) {callee : String}
    (hcallee : callee ∈ f.callees) : m.ReachesOnly callee (fs ++ fs') := by
  have hcall : m.Calls f.name callee := ⟨f, hf, rfl, hcallee⟩
  intro g hg hreach
  have hmem := h g hg (hreach.head hcall)
  have hne : g ≠ f := by
    rintro rfl
    exact hm g.name (.head' hcall hreach)
  grind

/-- Without recursion runs settle, with one unit of fuel for each block that they may come to. -/
theorem settles_of_reachesOnly (hm : Nonrecursive m.Calls) (hf : ∀ f ∈ m.functions, f.WellBranched)
    {name : String} {fs : List Function} (h : m.ReachesOnly name fs) (args : List Datum) :
    Settles (blockCount fs) fun fuel => m.run fuel name args := by
  -- A function that runs is taken from the list, so that the list gets shorter with every call.
  induction hlen : fs.length using Nat.strongRecOn generalizing name fs args with
  | _ n ih =>
    simp only [Module.run]
    cases hstart : m.start? name with
    | error e => exact .ofExcept (.error e)
    | ok start =>
      obtain ⟨f, entry⟩ := start
      obtain ⟨hmem, rfl, hentry⟩ := start?_eq_ok hstart
      obtain ⟨rank, hrank⟩ := (hf f hmem).exists_ranks
      obtain ⟨before, after, rfl⟩ := List.append_of_mem (h f hmem .refl)
      have hcall : ∀ callee ∈ f.callees, ∀ ds,
          Settles (blockCount (before ++ after)) fun fuel => m.run fuel callee ds := by
        intro callee hcallee ds
        refine ih (before ++ after).length ?_ (h.callee hm hmem hcallee) ds rfl
        simp [← hlen]
      refine (settles_runFrom hrank hcall hentry _).mono ?_
      have := hrank.lt entry hentry
      simp only [blockCount, List.flatMap_append, List.flatMap_cons, List.length_append]
      omega

theorem settles_run (hm : Nonrecursive m.Calls) (hf : ∀ f ∈ m.functions, f.WellBranched)
    (name : String) (args : List Datum) :
    Settles (blockCount m.functions) fun fuel => m.run fuel name args :=
  settles_of_reachesOnly hm hf (fun _ hg _ => hg) args

end Module
end IR
end ProcLang

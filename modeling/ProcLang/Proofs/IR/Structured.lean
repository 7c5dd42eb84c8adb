import ProcLang.Proofs.IR.Placement
import ProcLang.Proofs.IR.Run

/-!
# Structured runs

A flow can be run as it stands, without blocks: a conditional runs one of its cases and goes on with
what follows. Running the blocks that a flow is laid out in comes to the same. Only the fuel is
counted differently. A run of blocks spends it on blocks and calls, a structured run on calls alone,
so the two are compared in the limit.

## Main definitions

* `Flow.run` — a structured run.
* `Procedure`, `Procedure.calls` — functions given by flows, and calls of them to a given depth.
* `Approximates` — ways to compare runs with ever more fuel with a single run.

## Main statements

* `Approximates.flow` — the blocks of a flow approximate its structured run.
* `Procedure.calls_of_run`, `Procedure.run_of_calls` — a call that has an outcome in blocks has it
  in flows as well, and the other way round.
-/
namespace ProcLang.IR

/-- A structured run of a flow; `k` is what follows if the flow does not return. -/
def Flow.run (call : String → List Datum → Run (Option Datum)) :
    Flow → (Activation → Run (Option Datum)) → Activation → Run (Option Datum)
  | .fall, k, a => k a
  | .ret none, _, _ => return none
  | .ret (some v), _, a => do return some (← Run.ofExcept (a.get v))
  | .emit i rest, k, a => do rest.run call k (← runInstrs call a [i])
  | .bind n v rest, k, a => do rest.run call k (← runInstrs call a (reserve n v))
  | .when cond yes rest, k, a => do
    match ← Run.ofExcept (a.get cond) with
    | .bool true => yes.run call (rest.run call k) a
    | .bool false => rest.run call k a
    | d => throw (.badCondition d)
  | .either cond yes _ no rest, k, a => do
    match ← Run.ofExcept (a.get cond) with
    | .bool true => yes.run call (rest.run call k) a
    | .bool false => no.run call (rest.run call k) a
    | d => throw (.badCondition d)

namespace Flow

variable {call : String → List Datum → Run (Option Datum)} {k : Activation → Run (Option Datum)}

theorem run_emits (is : List Instr) (g : Flow) (a : Activation) :
    (emits is g).run call k a = runInstrs call a is >>= fun a => g.run call k a := by
  induction is generalizing a with
  | nil => exact (pure_bind a _).symm
  | cons i is ih =>
    rw [runInstrs_cons, bind_assoc]
    exact congrArg _ (funext ih)

variable {a : Activation} {cond : Value} {c : Bool} (h : a.get cond = .ok (.bool c))

include h

theorem run_when (yes rest : Flow) : (Flow.when cond yes rest).run call k a =
    if c then yes.run call (rest.run call k) a else rest.run call k a := by
  simp only [run, h]
  cases c <;> rfl

theorem run_either (yes : Flow) (base : String) (no rest : Flow) :
    (Flow.either cond yes base no rest).run call k a =
      if c then yes.run call (rest.run call k) a else no.run call (rest.run call k) a := by
  simp only [run, h]
  cases c <;> rfl

end Flow

/-- A function given by a flow. -/
structure Procedure where
  name : String
  ret : Ty
  params : List (String × Ty)
  flow : Flow

namespace Procedure

/-- The function with the blocks of the flow. -/
def function (q : Procedure) : Function := .ofFlow q.name q.ret q.params q.flow

/-- What the end of a procedure without a return comes to. -/
def fallOff (q : Procedure) : Run (Option Datum) :=
  if q.ret.isVoid then return none else throw (.unreachable q.name)

/-- A call of one of the procedures `qs`, given how calls in it are run. -/
def callWith (qs : List Procedure) (call : String → List Datum → Run (Option Datum))
    (name : String) (args : List Datum) : Run (Option Datum) :=
  match qs.find? (·.name == name) with
  | none => throw .missingFunction
  | some q => q.flow.run call (fun _ => q.fallOff) (.start q.function args)

/-- A call of one of the procedures `qs` with calls nested up to the given depth. -/
def calls (qs : List Procedure) : Nat → String → List Datum → Run (Option Datum)
  | 0 => callWith qs fun _ _ => .outOfFuel
  | depth + 1 => callWith qs (calls qs depth)

end Procedure

/-- A way to compare runs with ever more fuel with a single run. -/
structure Approximates (R : {α : Type} → (Nat → Run α) → Run α → Prop) : Prop where
  const {α : Type} (x : Run α) : R (fun _ => x) x
  seq {α β : Type} {x' : Nat → Run α} {x : Run α} {k' : Nat → α → Run β} {k : α → Run β}
    (hx : R x' x) (hk : ∀ a, R (fun n => k' n a) (k a)) : R (fun n => x' n >>= k' n) (x >>= k)
  /-- Fuel is also spent on other things. -/
  later {α : Type} {x' : Nat → Run α} {x : Run α} (h : R (fun n => x' (n + 1)) x)
    (h₀ : x' 0 = .outOfFuel) : R x' x

namespace Approximates

/-- With little fuel there are no other outcomes. -/
theorem upTo (fuel : Nat) : Approximates fun x' x =>
    ∀ n ≤ fuel, ∀ r, (x' n).run = some r → x.run = some r where
  const x n _ r h := h
  seq hx hk n hn r h := by
    obtain ⟨a, ha, hr⟩ | ⟨e, he, hr⟩ := Run.seq_eq_some.mp h
    · exact Run.seq_eq_some.mpr (.inl ⟨a, hx n hn _ ha, hk a n hn _ hr⟩)
    · exact Run.seq_eq_some.mpr (.inr ⟨e, hx n hn _ he, hr⟩)
  later h h₀ n hn r hr := by
    cases n with
    | zero =>
      rw [h₀] at hr
      cases hr
    | succ n => exact h n (by omega) r hr

/-- With enough fuel there is the same outcome. -/
theorem eventually : Approximates fun x' x =>
    ∀ r, x.run = some r → ∃ fuel, ∀ n ≥ fuel, (x' n).run = some r where
  const x r h := ⟨0, fun _ _ => h⟩
  seq hx hk r h := by
    obtain ⟨a, ha, hr⟩ | ⟨e, he, hr⟩ := Run.seq_eq_some.mp h
    · obtain ⟨fuel₁, h₁⟩ := hx _ ha
      obtain ⟨fuel₂, h₂⟩ := hk a _ hr
      refine ⟨max fuel₁ fuel₂, fun n hn => Run.seq_eq_some.mpr (.inl ⟨a, ?_, ?_⟩)⟩
      · exact h₁ n (by omega)
      · exact h₂ n (by omega)
    · obtain ⟨fuel, h⟩ := hx _ he
      exact ⟨fuel, fun n hn => Run.seq_eq_some.mpr (.inr ⟨e, h n hn, hr⟩)⟩
  later h h₀ r hr := by
    obtain ⟨fuel, h⟩ := h r hr
    refine ⟨fuel + 1, fun n hn => ?_⟩
    obtain ⟨n, rfl⟩ : ∃ n', n = n' + 1 := ⟨n - 1, by omega⟩
    exact h n (by omega)

variable {R : {α : Type} → (Nat → Run α) → Run α → Prop} {m : Module}
  {call : String → List Datum → Run (Option Datum)} {f : Function}

theorem instrs (hR : Approximates R)
    (hcall : ∀ name ds, R (fun n => m.run n name ds) (call name ds)) (is : List Instr)
    (a : Activation) :
    R (fun n => runInstrs (m.run n) a is) (runInstrs call a is) := by
  induction is generalizing a with
  | nil => exact hR.const _
  | cons i is ih =>
    refine hR.seq ?_ fun r => ih _
    cases i.op with
    | call name ty args =>
      refine hR.seq (hR.const _) fun ds => hR.seq (hcall name ds) fun d => hR.const _
    | alloca | load | store | arith | compare | cast => exact hR.const _

/-- What follows a branch to a block. -/
theorem jump (hR : Approximates R) {a : Activation} {i : Nat} {b : Block} {x : Run (Option Datum)}
    (hf : f.Labelled) (hb : f.blocks[i]? = some b)
    (h : R (fun n => runInstrs (m.run n) a b.instrs >>= fun a => m.leave n f a b.terminator) x) :
    R (fun n => m.leave n f a (some (.br b.label))) x := by
  simp only [Module.leave_br m _ f a (hf.blockOf? hb)]
  refine hR.later ?_ rfl
  simpa only [Module.runFrom_succ] using h

theorem branch (hR : Approximates R) {a : Activation} {cond : Value} {yes no : String}
    {x y : Run (Option Datum)} (hyes : R (fun n => m.leave n f a (some (.br yes))) x)
    (hno : R (fun n => m.leave n f a (some (.br no))) y) :
    R (fun n => m.leave n f a (some (.brIf cond yes no))) (do
      match ← Run.ofExcept (a.get cond) with
      | .bool true => x
      | .bool false => y
      | d => throw (.badCondition d)) := by
  simp only [Module.leave_brIf]
  refine hR.seq (hR.const _) fun d => ?_
  cases d with
  | bool c =>
    cases c with
    | true => exact hyes
    | false => exact hno
  | int | float | ptr => exact hR.const _

/-- The blocks of a flow approximate its structured run. -/
theorem flow (hR : Approximates R) (hf : f.Labelled)
    (hcall : ∀ name ds, R (fun n => m.run n name ds) (call name ds)) {g : Flow} {n : Nat}
    {e : Terminator} {k : Activation → Run (Option Datum)}
    (hblocks : f.Holds n (g.blocks n (some e)))
    (hexit : ∀ a, R (fun fuel => m.leave fuel f a (some e)) (k a)) (a : Activation) :
    R (fun fuel => runInstrs (m.run fuel) a g.instrs >>= fun a =>
      m.leave fuel f a (g.terminator n (some e))) (g.run call k a) := by
  induction g generalizing n e k a with
  | fall => exact hexit a
  | ret v =>
    cases v with
    | none => exact hR.const _
    | some v =>
      change R (fun fuel => m.leave fuel f a (some (.ret (some v)))) _
      simp only [Module.leave_ret]
      exact hR.const _
  | emit i rest ih =>
    simp only [Flow.instrs, runInstrs_cons _ a i rest.instrs, bind_assoc]
    exact hR.seq (hR.instrs hcall [i] a) fun a => ih hblocks hexit a
  | bind j v rest ih =>
    simp only [Flow.instrs, runInstrs_append, bind_assoc]
    exact hR.seq (hR.instrs hcall _ a) fun a => ih hblocks hexit a
  | when cond yes rest ihy ih =>
    obtain ⟨hy, hys, hr, hrs⟩ := Function.holds_when hblocks
    have hnext a := hR.jump hf hr (ih hrs hexit a)
    exact hR.branch (hR.jump hf hy (ihy hys hnext a)) (hnext a)
  | either cond yes base no rest ihy ihn ih =>
    obtain ⟨hy, hys, hr, hn, hns, hrs⟩ := Function.holds_either hblocks
    have hnext a := hR.jump hf hr (ih hrs hexit a)
    exact hR.branch (hR.jump hf hy (ihy hys hnext a)) (hR.jump hf hn (ihn hns hnext a))

end Approximates

namespace Procedure

variable {R : {α : Type} → (Nat → Run α) → Run α → Prop} {m : Module} {qs : List Procedure}
  {call : String → List Datum → Run (Option Datum)}

theorem leave_ending (q : Procedure) (m : Module) (fuel : Nat) (a : Activation) :
    m.leave fuel q.function a (some (Function.ending q.ret)) = q.fallOff := by
  unfold Function.ending fallOff
  split <;> rfl

theorem find?_functions (hm : m.functions = qs.map function) (name : String) :
    m.functions.find? (·.name == name) = (qs.find? (·.name == name)).map function := by
  rw [hm, List.find?_map]
  rfl

theorem run_eq_missing (hm : m.functions = qs.map function) {name : String}
    (hq : qs.find? (·.name == name) = none) (fuel : Nat) (ds : List Datum) :
    m.run fuel name ds = throw .missingFunction := by
  simp only [Module.run, Module.start?, find?_functions hm, hq, Option.map_none]
  rfl

theorem run_eq_runFrom (hm : m.functions = qs.map function) {name : String} {q : Procedure}
    (hq : qs.find? (·.name == name) = some q) (fuel : Nat) (ds : List Datum) :
    m.run fuel name ds = m.runFrom fuel q.function (.start q.function ds)
      ⟨Function.entryLabel, q.flow.instrs, q.flow.terminator 1 (some (Function.ending q.ret))⟩ := by
  simp only [Module.run, Module.start?, find?_functions hm, hq, Option.map_some]
  rfl

/-- Calls approximate structured calls if the calls in them do. -/
theorem approximates_callWith (hR : Approximates R) (hm : m.functions = qs.map function)
    (hcall : ∀ name ds, R (fun n => m.run n name ds) (call name ds)) (name : String)
    (ds : List Datum) : R (fun n => m.run (n + 1) name ds) (callWith qs call name ds) := by
  unfold callWith
  cases hq : qs.find? (·.name == name) with
  | none =>
    simp only [run_eq_missing hm hq]
    exact hR.const _
  | some q =>
    have hf : q.function.Labelled := Function.labelled_ofFlow q.name q.ret q.params q.flow
    have hblocks := (Function.holds_ofFlow q.name q.ret q.params q.flow).2
    simp only [run_eq_runFrom hm hq, Module.runFrom_succ]
    refine hR.flow hf hcall hblocks (fun a => ?_) _
    simp only [leave_ending]
    exact hR.const _

/-- Without fuel there is only the outcome of a call of a function that is missing. -/
theorem run_zero (hm : m.functions = qs.map function) {name : String} {ds : List Datum}
    {r : Except Fault (Option Datum)} (h : (m.run 0 name ds).run = some r) :
    (callWith qs call name ds).run = some r := by
  unfold callWith
  cases hq : qs.find? (·.name == name) with
  | none => rwa [run_eq_missing hm hq] at h
  | some q =>
    rw [run_eq_runFrom hm hq] at h
    cases h

/-- What a call comes to in blocks it comes to in flows, if calls may be nested that deep. -/
theorem calls_of_run (hm : m.functions = qs.map function) (depth : Nat) (name : String)
    (ds : List Datum) : ∀ n ≤ depth, ∀ r, (m.run n name ds).run = some r →
      (calls qs depth name ds).run = some r := by
  induction depth generalizing name ds with
  | zero =>
    intro n hn r h
    obtain rfl := Nat.le_zero.mp hn
    exact run_zero hm h
  | succ depth ih =>
    intro n hn r h
    cases n with
    | zero => exact run_zero hm h
    | succ n =>
      exact approximates_callWith (.upTo depth) hm ih name ds n (by omega) r h

/-- What a call comes to in flows it comes to in blocks, with enough fuel. -/
theorem run_of_calls (hm : m.functions = qs.map function) (depth : Nat) (name : String)
    (ds : List Datum) : ∀ r, (calls qs depth name ds).run = some r →
      ∃ fuel, ∀ n ≥ fuel, (m.run n name ds).run = some r := by
  -- a call that takes one unit more than the calls in it is still made with enough fuel
  have step : ∀ {call}, (∀ name ds r, (call name ds).run = some r →
      ∃ fuel, ∀ n ≥ fuel, (m.run n name ds).run = some r) → ∀ name ds r,
      (callWith qs call name ds).run = some r →
        ∃ fuel, ∀ n ≥ fuel, (m.run n name ds).run = some r := by
    intro call hcall name ds r h
    obtain ⟨fuel, hfuel⟩ := approximates_callWith .eventually hm hcall name ds r h
    refine ⟨fuel + 1, fun n hn => ?_⟩
    obtain ⟨n, rfl⟩ : ∃ n', n = n' + 1 := ⟨n - 1, by omega⟩
    exact hfuel n (by omega)
  induction depth generalizing name ds with
  | zero =>
    refine step (fun _ _ r h => ?_) name ds
    cases h
  | succ depth ih => exact step ih name ds

end Procedure

end ProcLang.IR

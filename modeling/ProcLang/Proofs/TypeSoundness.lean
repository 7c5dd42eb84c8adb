import ProcLang.Proofs.IR.Soundness

/-!
# Type soundness

A run of a lowered program is followed instruction by instruction, through all blocks and all calls.
At every place on the way the values of the call are of their types, and what is still to come ends,
if it ends, with a value of the type that the function returns or with one of the natural faults.

## Main definitions

* `Place`, `Module.Step`, `Module.Reaches` — a place in a run, and the places that a run comes to.
* `Place.outcome` — what a run still comes to from a place on.
* `Module.Typed` — a module with typed functions only.

## Main statements

* `Module.Typed.ready` — at every place of a run there is typed code ahead.
* `Module.Typed.safe_run` — a call with values of the right types is safe.
* `Program.typeSound_of_lower`.
-/
namespace ProcLang
namespace IR

/-- A place in a run: a block of a function whose instructions have been run up to `rest`. The fuel
is for calls and for the blocks behind this one. -/
structure Place where
  fuel : Nat
  function : Function
  block : Block
  rest : List Instr
  frame : Activation

/-- What a run comes to from a place on. -/
def Place.outcome (m : Module) (q : Place) : Run (Option Datum) := do
  let a ← runInstrs (m.run q.fuel) q.frame q.rest
  m.leave q.fuel q.function a q.block.terminator

namespace Module

/-- One step of a run. A call is stepped into, and it is stepped over as well. -/
inductive Step (m : Module) : Place → Place → Prop where
  | instr {fuel : Nat} {f : Function} {b : Block} {i : Instr} {is : List Instr} {a a' : Activation}
      (h : (runInstrs (m.run fuel) a [i]).run = some (.ok a')) :
      Step m ⟨fuel, f, b, i :: is, a⟩ ⟨fuel, f, b, is, a'⟩
  | call {fuel : Nat} {f g : Function} {b entry : Block} {i : Instr} {is : List Instr}
      {a : Activation} {name : String} {ty : Ty} {args : List Value} {ds : List Datum}
      (hop : i.op = .call name ty args) (hargs : a.getAll args = .ok ds)
      (hstart : m.start? name = .ok (g, entry)) :
      Step m ⟨fuel + 1, f, b, i :: is, a⟩ ⟨fuel, g, entry, entry.instrs, .start g ds⟩
  | jump {fuel : Nat} {f : Function} {b next : Block} {t : Terminator} {a : Activation}
      {label : String} (ht : b.terminator = some t) (hrun : t.run f.name a = .ok (.jump label))
      (hnext : f.blockOf? label = some next) :
      Step m ⟨fuel + 1, f, b, [], a⟩ ⟨fuel, f, next, next.instrs, a⟩

/-- The places that a call comes to, those of the calls that it makes included. -/
inductive Reaches (m : Module) (name : String) (args : List Datum) : Place → Prop where
  | start {f : Function} {b : Block} (fuel : Nat) (h : m.start? name = .ok (f, b)) :
      Reaches m name args ⟨fuel, f, b, b.instrs, .start f args⟩
  | step {q q' : Place} (h : Reaches m name args q) (hs : m.Step q q') : Reaches m name args q'

end Module

/-- A function that is the layout of a typed flow. -/
structure Function.Typed (f : Function) (sigs : List Signature) : Prop where
  params : (f.params.map Prod.fst).Nodup
  labels : f.Labelled
  defined : f.defined.Nodup
  start : ∃ b bs g, f.blocks = b :: bs ∧ b.terminator = g.terminator 1 (some (ending f.ret)) ∧
    b.instrs = g.instrs ∧ f.Has (f.env sigs) .empty g 1 (ending f.ret)

/-- The names of the functions of a module. -/
def Module.names (m : Module) : List String := m.functions.map (·.name)

/-- What callers need to know of the functions of a module. -/
def Module.sigs (m : Module) : List Signature := m.functions.map (·.signature)

/-- A module with typed functions. -/
structure Module.Typed (m : Module) : Prop where
  names : m.names.Nodup
  functions : ∀ f ∈ m.functions, f.Typed m.sigs

/-- The function of a typed flow is typed. -/
theorem Function.typed_ofFlow {E : Env} {g : Flow} (hg : g.Typed E 0 .empty g.defs)
    (hparams : (E.params.map Prod.fst).Nodup) (name : String) :
    (ofFlow name E.ret E.params g).Typed E.sigs where
  params := hparams
  labels := labelled_ofFlow name E.ret E.params g
  defined := nodup_defined (singleAssignment_ofFlow hg name).defined
  start := ⟨_, _, g, rfl, rfl, rfl, (startsAt_ofFlow hg name E.params).2⟩

/-! ## Starts of calls -/

theorem Activation.typed_start {f : Function} {args : List Datum}
    (hnames : (f.params.map Prod.fst).Nodup)
    (h : List.Forall₂ Datum.Canonical f.signature.params args) :
    (Activation.start f args).Typed f [] := by
  refine ⟨fun p hp => ?_, ?_, rfl, ?_⟩
  · have hall := lookup_name hnames (List.forall₂_map_left_iff.mp h) id
    obtain ⟨d, -, hd⟩ := exists_of_forall₂ hall hp
    exact ⟨d, by simpa [start] using hd⟩
  · intro k d hd
    cases hd
  · intro i ty d hi
    cases hi

namespace Module.Typed

variable {m : Module} {f : Function} {fuel : Nat}

/-- A call of a typed function starts with typed code ahead. -/
theorem start (hm : m.Typed) (hf : f ∈ m.functions) {args : List Datum}
    (hargs : List.Forall₂ Datum.Canonical f.signature.params args) :
    ∃ b ∈ f.blocks, m.start? f.name = .ok (f, b) ∧
      Ready.After f m.sigs b.instrs b.terminator (.start f args) := by
  obtain ⟨hparams, -, -, b, bs, g, hblocks, ht, hi, hhas⟩ := hm.functions f hf
  have hfind : m.functions.find? (·.name == f.name) = some f := find?_name hm.names hf
  refine ⟨b, by simp [hblocks], by simp [Module.start?, hfind, hblocks], [], ?_, ?_⟩
  · rw [hi, ht]
    exact .flow hhas ⟨fun t ht => (nomatch ht), fun t ht => (nomatch ht)⟩
  · exact Activation.typed_start hparams hargs

end Module.Typed

/-- What many instructions do. -/
theorem Ready.After.instrs {f : Function} {functions : List String} {sigs : List Signature}
    {call : String → List Datum → Run (Option Datum)} {b : Block} {is : List Instr}
    {t : Option Terminator} {a : Activation} (h : Ready.After f sigs is t a)
    (hdefined : f.defined.Nodup) (hb : b ∈ f.blocks) (his : is ⊆ b.instrs)
    (hcall : SafeCalls functions sigs call) :
    (runInstrs call a is).Safe functions (Ready.After f sigs [] t) := by
  induction is generalizing a with
  | nil => exact Run.safe_pure h
  | cons i is ih =>
    obtain ⟨cells, h, ha⟩ := h
    obtain ⟨hi, his⟩ := List.cons_subset.mp his
    rw [runInstrs_cons]
    exact (h.instr ha hdefined hb hi hcall).seq fun a h => ih h his

/-- A place with typed code ahead. -/
structure Place.Ready (m : Module) (q : Place) : Prop where
  function : q.function ∈ m.functions
  block : q.block ∈ q.function.blocks
  rest : q.rest ⊆ q.block.instrs
  frame : Ready.After q.function m.sigs q.rest q.block.terminator q.frame

namespace Module.Typed

variable {m : Module} {f : Function} {fuel : Nat}

theorem safe_outcome (hm : m.Typed) {q : Place} (hq : q.Ready m)
    (hcall : SafeCalls m.names m.sigs (m.run q.fuel))
    (hnext : ∀ a, ∀ b ∈ q.function.blocks, Ready.After q.function m.sigs
      b.instrs b.terminator a → (m.runFrom q.fuel q.function a b).Safe m.names
        (Datum.Returned q.function.ret)) :
    (q.outcome m).Safe m.names (Datum.Returned q.function.ret) := by
  have hf := hm.functions _ hq.function
  refine (hq.frame.instrs hf.defined hq.block hq.rest hcall).seq fun a hafter => ?_
  obtain ⟨cells, hready, ha⟩ := hafter
  obtain ⟨t, ht, hsafe⟩ := hready.terminator ha hf.labels (List.mem_map_of_mem hq.function)
  rw [ht]
  refine hsafe.seq fun exit hexit => ?_
  cases exit with
  | returned d => exact Run.safe_pure hexit
  | jump label =>
    obtain ⟨b, hb, hready⟩ := hexit
    simp only [hb]
    exact hnext a b (List.mem_of_find?_eq_some hb) ⟨cells, hready, ha⟩

theorem safeCalls (hm : m.Typed)
    (h : ∀ f ∈ m.functions, ∀ a, ∀ b ∈ f.blocks, Ready.After f m.sigs b.instrs b.terminator a →
      (m.runFrom fuel f a b).Safe m.names (Datum.Returned f.ret)) :
    SafeCalls m.names m.sigs (m.run fuel) := by
  intro sig hsig ds hds
  obtain ⟨g, hg, rfl⟩ := List.mem_map.mp hsig
  obtain ⟨entry, hentry, hstart, hready⟩ := hm.start hg hds
  refine (Run.safe_ok hstart rfl).seq ?_
  rintro _ rfl
  exact h g hg _ entry hentry hready

/-- From a block with typed code ahead on, a run is safe with any fuel. -/
theorem safe_runFrom (hm : m.Typed) (fuel : Nat) : ∀ f ∈ m.functions, ∀ a, ∀ b ∈ f.blocks,
    Ready.After f m.sigs b.instrs b.terminator a →
      (m.runFrom fuel f a b).Safe m.names (Datum.Returned f.ret) := by
  induction fuel with
  | zero => exact fun f _ a b _ _ => Run.safe_outOfFuel
  | succ fuel ih =>
    intro f hf a b hb h
    have hq : Place.Ready m ⟨fuel, f, b, b.instrs, a⟩ := ⟨hf, hb, List.Subset.refl _, h⟩
    rw [runFrom_succ]
    exact hm.safe_outcome hq (hm.safeCalls ih) (ih f hf)

theorem safe_run (hm : m.Typed) (fuel : Nat) : SafeCalls m.names m.sigs (m.run fuel) :=
  hm.safeCalls (hm.safe_runFrom fuel)

/-- A step leads to a place with typed code ahead. -/
theorem step (hm : m.Typed) {q q' : Place} (hq : q.Ready m) (hs : m.Step q q') : q'.Ready m := by
  have hf := hm.functions _ hq.function
  obtain ⟨cells, hready, ha⟩ := hq.frame
  cases hs with
  | @instr fuel f b i is a a' h =>
    obtain ⟨hi, his⟩ := List.cons_subset.mp hq.rest
    have hsafe := hready.instr ha hf.defined hq.block hi (hm.safe_run fuel)
    exact ⟨hq.function, hq.block, his, hsafe.1 a' h⟩
  | call hop hargs hstart =>
    obtain ⟨sig, hsig, rfl, hds⟩ := hready.callee ha hop hargs
    obtain ⟨g, hg, rfl⟩ := List.mem_map.mp hsig
    obtain ⟨entry, hentry, hstart', hready'⟩ := hm.start hg hds
    cases hstart.symm.trans hstart'
    exact ⟨hg, hentry, List.Subset.refl _, hready'⟩
  | @jump fuel f b next t a label ht hrun hnext =>
    obtain ⟨t', ht', hsafe⟩ := hready.terminator ha hf.labels (List.mem_map_of_mem hq.function)
    obtain rfl : t = t' := Option.some.inj (ht.symm.trans ht')
    obtain ⟨b', hb', hready'⟩ := hsafe.1 (.jump label) (congrArg some hrun)
    obtain rfl : next = b' := Option.some.inj (hnext.symm.trans hb')
    exact ⟨hq.function, List.mem_of_find?_eq_some hb', List.Subset.refl _, cells, hready', ha⟩

/-- At every place of a run there is typed code ahead. -/
theorem ready (hm : m.Typed) (hf : f ∈ m.functions) {args : List Datum}
    (hargs : List.Forall₂ Datum.Canonical f.signature.params args) {q : Place}
    (h : m.Reaches f.name args q) : q.Ready m := by
  induction h with
  | start fuel h =>
    obtain ⟨b, hb, hstart, hready⟩ := hm.start hf hargs
    cases h.symm.trans hstart
    exact ⟨hf, hb, List.Subset.refl _, hready⟩
  | step _ hs ih => exact hm.step ih hs

/-- From every place of a run on, what is still to come is safe. -/
theorem safe_ready (hm : m.Typed) {q : Place} (hq : q.Ready m) :
    (q.outcome m).Safe m.names (Datum.Returned q.function.ret) :=
  hm.safe_outcome hq (hm.safe_run q.fuel) (hm.safe_runFrom q.fuel _ hq.function)

end Module.Typed
end IR

theorem Declaration.LowersTo.signature {S : Scopes Binding} {d : Declaration} {f : IR.Function}
    (h : d.LowersTo S f) : d.header.signature = f.signature := by
  obtain ⟨g, -, rfl⟩ := h
  rfl

/-- The module of a program is typed. -/
theorem Program.typed_of_lower {p : Program} {name : String} {m : IR.Module}
    (h : p.lower name = .ok m) : m.Typed := by
  obtain ⟨hnames, hall⟩ := lowersTo_of_lower h
  have hsigs : p.map (·.header.signature) = m.sigs := by
    refine List.forall₂_eq_eq_eq ▸ ?_
    rw [IR.Module.sigs, List.forall₂_map_left_iff, List.forall₂_map_right_iff]
    exact hall.imp fun d f hd => hd.signature
  have hnames' : p.map (·.name) = m.names := by
    have := congrArg (List.map (·.name)) hsigs
    rwa [IR.Module.sigs, List.map_map, List.map_map] at this
  refine ⟨hnames' ▸ hnames, fun f hf => ?_⟩
  obtain ⟨d, -, hd⟩ := exists_lowersTo h hf
  have hparams : (d.irParams.map Prod.fst).Nodup := by
    obtain ⟨g, hg, -⟩ := hd
    rw [Declaration.irParams, List.map_map]
    exact hg.1
  obtain ⟨g, rfl, hg⟩ := hd.typed
  rw [← hsigs]
  exact IR.Function.typed_ofFlow hg hparams d.name

/-- Lowered programs are type sound. If a function is called with values of its parameters' types,
then at every place of the run all temporaries and all storage hold values of their types, and every
call that ends there returns a value of the right type or fails with a natural fault. -/
theorem Program.typeSound_of_lower {p : Program} {name : String} {m : IR.Module}
    (h : p.lower name = .ok m) {f : IR.Function} (hf : f ∈ m.functions) {args : List IR.Datum}
    (hargs : List.Forall₂ IR.Datum.Canonical f.signature.params args) :
    (∀ q, m.Reaches f.name args q → (∃ cells, q.frame.Typed q.function cells) ∧
      (q.outcome m).Safe m.names (IR.Datum.Returned q.function.ret)) ∧
    ∀ fuel, (m.run fuel f.name args).Safe m.names (IR.Datum.Returned f.ret) := by
  have hm := typed_of_lower h
  refine ⟨fun q hq => ?_, fun fuel => ?_⟩
  · have hready := hm.ready hf hargs hq
    obtain ⟨cells, -, ha⟩ := hready.frame
    exact ⟨⟨cells, ha⟩, hm.safe_ready hready⟩
  · exact hm.safe_run fuel f.signature (List.mem_map_of_mem hf) args hargs

/-- The first function of the sample takes an integer and a truth value. -/
theorem Program.exists_clamp {m : IR.Module} (h : sample.lower "sample" = .ok m) :
    ∃ f ∈ m.functions, f.signature = ⟨"clamp", [.i32, .i1], .i32⟩ := by
  obtain ⟨-, hall⟩ := lowersTo_of_lower h
  generalize m.functions = fs at hall
  cases hall with
  | cons hf _ => exact ⟨_, List.mem_cons_self, hf.signature.symm⟩

/-- The sample, called with the largest integer of 32 bits. -/
theorem Program.typeSound_sample : ∃ m, sample.lower "sample" = .ok m ∧ ∃ f ∈ m.functions,
    List.Forall₂ IR.Datum.Canonical f.signature.params [.int 2147483647, .bool true] ∧
    (∀ q, m.Reaches f.name [.int 2147483647, .bool true] q →
      (∃ cells, q.frame.Typed q.function cells) ∧
        (q.outcome m).Safe m.names (IR.Datum.Returned q.function.ret)) ∧
    ∀ fuel, (m.run fuel f.name [.int 2147483647, .bool true]).Safe m.names
      (IR.Datum.Returned f.ret) := by
  obtain ⟨m, hm⟩ := Program.exists_lower_sample
  obtain ⟨f, hf, hsig⟩ := exists_clamp hm
  have hargs : List.Forall₂ IR.Datum.Canonical f.signature.params
      [.int 2147483647, .bool true] := by
    rw [hsig]
    exact .cons (by simp only [IR.Datum.Canonical]; decide) (.cons trivial .nil)
  exact ⟨m, hm, f, hf, hargs, typeSound_of_lower hm hf hargs⟩

end ProcLang

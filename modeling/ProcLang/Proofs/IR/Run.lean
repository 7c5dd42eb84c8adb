import ProcLang.IR.Run

/-!
# Outcomes of runs

A run has no outcome without fuel; otherwise it ends with a value or with a fault. What an operation
does depends on the values of its operands only, and a block is run instruction by instruction.
-/
namespace ProcLang.IR

namespace Run

variable {α β : Type} {x : Run α} {k : α → Run β}

theorem seq_eq_ok {b : β} :
    (x >>= k).run = some (.ok b) ↔ ∃ a, x.run = some (.ok a) ∧ (k a).run = some (.ok b) := by
  change (x.run >>= _ : Option _) = _ ↔ _
  cases x.run with
  | none => simp
  | some r => cases r <;> simp [ExceptT.bindCont, ExceptT.run, pure]

theorem seq_eq_error {e : Fault} :
    (x >>= k).run = some (.error e) ↔
      x.run = some (.error e) ∨ ∃ a, x.run = some (.ok a) ∧ (k a).run = some (.error e) := by
  change (x.run >>= _ : Option _) = _ ↔ _
  cases x.run with
  | none => simp
  | some r => cases r <;> simp [ExceptT.bindCont, ExceptT.run, pure]

theorem seq_eq_some {r : Except Fault β} :
    (x >>= k).run = some r ↔ (∃ a, x.run = some (.ok a) ∧ (k a).run = some r) ∨
      ∃ e, x.run = some (.error e) ∧ r = .error e := by
  cases r with
  | ok b =>
    rw [seq_eq_ok]
    simp
  | error e =>
    rw [seq_eq_error, or_comm]
    simp

@[simp] theorem run_pure (a : α) : (pure a : Run α).run = some (.ok a) := rfl

@[simp] theorem run_ofExcept (e : Except Fault α) : (ofExcept e).run = some e := rfl

theorem ofExcept_ok_seq (a : α) (k : α → Run β) : (ofExcept (.ok a) >>= k) = k a := rfl

end Run

namespace Activation

variable {a : Activation} {v l r ptr : Value} {d x y : Datum}

/-- A frame after temporary `k` has got a value. -/
def withTemp (a : Activation) (k : Nat) (d : Datum) : Activation :=
  { a with temps := fun j => if j = k then some d else a.temps j }

/-- A frame after storage has been reserved for temporary `k` to point to. -/
def reserve (a : Activation) (k : Nat) : Activation :=
  { a with memory := a.memory ++ [none] }.withTemp k (.ptr a.memory.length)

/-- A frame after a value has been put into storage. -/
def fill (a : Activation) (i : Nat) (d : Datum) : Activation :=
  { a with memory := a.memory.set i (some d) }

theorem load_eq {i : Nat} (hptr : a.get ptr = .ok (.ptr i)) (hd : a.memory[i]? = some (some d)) :
    a.load ptr = .ok d := by
  simp [load, hptr, hd, bind, Except.bind, pure, Except.pure]

theorem store_eq {i : Nat} (hv : a.get v = .ok d) (hptr : a.get ptr = .ok (.ptr i))
    (hi : i < a.memory.length) :
    a.store v ptr = .ok (a.fill i d) := by
  simp [store, fill, hv, hptr, hi, bind, Except.bind, pure, Except.pure]

theorem arith_eq (op : Arith) (hl : a.get l = .ok x) (hr : a.get r = .ok y) :
    a.arith op l r = (Datum.arith op x y).map (·.narrow l.ty) := by
  simp only [arith, hl, hr]
  rfl

theorem compare_eq (op : Relation) (hl : a.get l = .ok x) (hr : a.get r = .ok y) :
    a.compare op l r = (Datum.order x y).map fun o => .bool (Datum.holds op o) := by
  simp only [compare, hl, hr]
  rfl

theorem cast_eq (op : Conversion) (ty : Ty) (hv : a.get v = .ok d) :
    a.cast op v ty = (Datum.convert op d).map (·.narrow ty) := by
  simp only [cast, hv]
  rfl

end Activation

/-! ## Blocks -/

section Blocks

variable (call : String → List Datum → Run (Option Datum))

theorem runInstrs_append (a : Activation) (is is' : List Instr) :
    runInstrs call a (is ++ is') = runInstrs call a is >>= fun a => runInstrs call a is' := by
  induction is generalizing a with
  | nil => simp [runInstrs]
  | cons i is ih => simp [runInstrs, ih]

theorem runInstrs_cons (a : Activation) (i : Instr) (is : List Instr) :
    runInstrs call a (i :: is) = runInstrs call a [i] >>= fun a => runInstrs call a is :=
  runInstrs_append call a [i] is

theorem runInstrs_concat (a : Activation) (is : List Instr) (i : Instr) :
    runInstrs call a (is ++ [i]) = (runInstrs call a is >>= fun a => i.op.run call a) >>= fun r =>
      pure (match r.1 with | some d => r.2.set i.result d | none => r.2) := by
  rw [runInstrs_append, bind_assoc]
  rfl

/-- What a run of a function comes to from the end of a block on. -/
def Module.leave (m : Module) (fuel : Nat) (f : Function) (a : Activation) :
    Option Terminator → Run (Option Datum)
  | none => throw .missingTerminator
  | some t => do
    match ← Run.ofExcept (t.run f.name a) with
    | .returned d => return d
    | .jump label =>
      match f.blockOf? label with
      | some next => m.runFrom fuel f a next
      | none => throw .missingBlock

theorem Module.leave_ret (m : Module) (fuel : Nat) (f : Function) (a : Activation) (v : Value) :
    m.leave fuel f a (some (.ret (some v))) = (do return some (← Run.ofExcept (a.get v))) := by
  simp only [leave, Terminator.run]
  cases a.get v <;> rfl

theorem Module.leave_br (m : Module) (fuel : Nat) (f : Function) (a : Activation) {b : Block}
    (h : f.blockOf? b.label = some b) :
    m.leave fuel f a (some (.br b.label)) = m.runFrom fuel f a b := by
  simp only [leave, Terminator.run, Run.ofExcept_ok_seq, h]

theorem Module.leave_brIf (m : Module) (fuel : Nat) (f : Function) (a : Activation) (cond : Value)
    (yes no : String) :
    m.leave fuel f a (some (.brIf cond yes no)) = (do
      match ← Run.ofExcept (a.get cond) with
      | .bool true => m.leave fuel f a (some (.br yes))
      | .bool false => m.leave fuel f a (some (.br no))
      | d => throw (.badCondition d)) := by
  simp only [leave, Terminator.run]
  cases a.get cond with
  | error e => rfl
  | ok d =>
    cases d with
    | bool c => cases c <;> rfl
    | int | float | ptr => rfl

theorem Module.runFrom_succ (m : Module) (fuel : Nat) (f : Function) (a : Activation) (b : Block) :
    m.runFrom (fuel + 1) f a b =
      runInstrs (m.run fuel) a b.instrs >>= fun a => m.leave fuel f a b.terminator := by
  change (b.run (m.run fuel) f.name a >>= _ : Run _) = _
  simp only [Block.run, bind_assoc]
  refine congrArg _ (funext fun a => ?_)
  cases b.terminator with
  | none => rfl
  | some t =>
    simp only [bind_assoc, pure_bind]
    rfl

end Blocks
end ProcLang.IR

import ProcLang.Proofs.Editing

/-!
# Changing a module in place

The operations on a module hand back a new one, so that nothing is left of an operation that fails.
Here are the same operations on a module of which there is one copy only. Checks and changes take
turns: the next temporary is taken before the instruction that defines it is added, and what has
been changed when a later check fails stays changed. That none of this shows is a matter of the
order of the steps.

## Main definitions

* `Builder` — steps on a function that is changed in place.
* `Builder.edit`, `Module.editInPlace` — changes in place.

## Main statements

* `Builder.edit_eq` — in place, too, a change that fails leaves the function as it was.
* `Module.effect_of_editInPlace` — what changes in place leave behind.
-/
namespace ProcLang.IR

/-- Steps on a function that is changed in place. What has been changed before a failure stays
changed. -/
abbrev Builder : Type → Type := EStateM Error Function

/-- The outcome of steps that have changed nothing if they fail. -/
def kept {σ α : Type} (s : σ) : Except Error (α × σ) → EStateM.Result Error σ α
  | .ok (a, s') => .ok a s'
  | .error e => .error e s

namespace Builder

/-! ## Steps -/

/-- Looks at the function. -/
def check {α : Type} (look : Function → Except Error α) : Builder α := fun f =>
  kept f ((look f).map (·, f))

/-- Fails unless `c` holds. -/
def require (c : Prop) [Decidable c] (e : Error) : Builder Unit :=
  check fun _ => if c then .ok () else .error e

/-- The block of a given index. -/
def block (b : Nat) : Builder Block := check (·.block b)

/-- Puts a block in the place of another. -/
def setBlock (b : Nat) (block : Block) : Builder Unit := modify (·.setBlock b block)

/-- Takes the next temporary. -/
def newTemp (ty : Ty) : Builder Value := fun f =>
  .ok ⟨.temp f.temps, ty⟩ { f with temps := f.temps + 1 }

/-- Adds an instruction at the end of a block. -/
def push (b : Nat) (i : Instr) : Builder Unit := do
  let old ← block b
  let new ← check fun _ => old.push i
  setBlock b new

/-- Ends a block. -/
def terminate (b : Nat) (t : Terminator) : Builder Unit := do
  let old ← block b
  let new ← check fun _ => old.close t
  setBlock b new

/-- Adds an operation that defines a new value. That the block is open is checked before the
temporary is taken, and once more when the instruction is added. -/
def define (b : Nat) (ty : Ty) (op : Operation) : Builder Value := do
  let old ← block b
  require (old.isClosed = false) (.resultInClosed op old.label)
  let v ← newTemp ty
  push b ⟨some v, op⟩
  return v

/-- The type that a pointer points to. -/
def target (ptr : Value) : Builder Ty :=
  check fun _ => ptr.ty.target?.elim (.error (.notPointer ptr.ty)) .ok

/-- Two operands need one type. -/
def sameTy (lhs rhs : Value) : Builder Unit :=
  require (lhs.ty = rhs.ty) (.operandMismatch lhs.ty rhs.ty)

/-! ## Operations -/

def load (b : Nat) (ptr : Value) : Builder Value := do
  define b (← target ptr) (.load ptr)

def store (b : Nat) (value ptr : Value) : Builder Unit := do
  let ty ← target ptr
  require (ty = value.ty) (.storeMismatch value.ty ty)
  push b ⟨none, .store value ptr⟩

def arith (b : Nat) (op : Arith) (lhs rhs : Value) : Builder Value := do
  sameTy lhs rhs
  require (op.accepts lhs.ty) (.invalidOperand op lhs.ty)
  define b lhs.ty (.arith op lhs rhs)

def compare (b : Nat) (op : Relation) (lhs rhs : Value) : Builder Value := do
  sameTy lhs rhs
  require ((lhs.ty.isVoid || lhs.ty.isPtr) = false) (.notComparable lhs.ty)
  define b .i1 (.compare op lhs rhs)

/-- The instruction of a call. -/
def emitCall (b : Nat) (callee : Signature) (args : List Value) : Builder (Option Value) :=
  let op := .call callee.name callee.ret args
  if callee.ret.isVoid then (fun _ => none) <$> push b ⟨none, op⟩
  else some <$> define b callee.ret op

def call (b : Nat) (callee : Signature) (args : List Value) : Builder (Option Value) := do
  require (callee.params.length = args.length)
    (.argumentCount callee.name callee.params.length args.length)
  check fun _ => (Function.argumentError? callee.name 0 callee.params args).elim (.ok ()) .error
  emitCall b callee args

/-- A conversion that takes an instruction. -/
def convert (b : Nat) (value : Value) (ty : Ty) : Builder Value := do
  let op ← check fun _ =>
    (Conversion.between? value.ty ty).elim (.error (.notConvertible value.ty ty)) .ok
  define b ty (.cast op value ty)

def cast (b : Nat) (value : Value) (ty : Ty) : Builder Value :=
  if value.ty = ty then return value
  else (value.fold ty).elim
    ((if ty.isBool then Function.zero? value.ty else none).elim (convert b value ty)
      (compare b .ne value))
    pure

def br (b goal : Nat) : Builder Unit := do
  let next ← block goal
  terminate b (.br next.label)

def condBr (b : Nat) (cond : Value) (yes no : Nat) : Builder Unit := do
  require (cond.ty.isBool) (.conditionType cond.ty)
  let yes ← block yes
  let no ← block no
  terminate b (.brIf cond yes.label no.label)

def retValue (b : Nat) (value : Value) : Builder Unit := do
  let f ← get
  require (value.ty = f.ret) (.returnType value.ty f.name f.ret)
  terminate b (.ret (some value))

def retVoid (b : Nat) : Builder Unit := do
  let f ← get
  require (f.ret.isVoid) (.returnVoid f.name f.ret)
  terminate b (.ret none)

/-- Makes a change in place. -/
def edit : Function.Edit → Builder Outcome
  | .addParam name ty => fun f => .ok (.value (f.addParam name ty).1) (f.addParam name ty).2
  | .entry => fun f => .ok (.block 0) f.entry
  | .addBlock label => fun f => .ok (.block (f.addBlock label).1) (f.addBlock label).2
  | .alloca b ty => .value <$> define b (.ptr ty) (.alloca ty)
  | .load b ptr => .value <$> load b ptr
  | .store b value ptr => (fun _ => .nothing) <$> store b value ptr
  | .arith b op lhs rhs => .value <$> arith b op lhs rhs
  | .compare b op lhs rhs => .value <$> compare b op lhs rhs
  | .call b callee args => (·.elim .nothing .value) <$> call b callee args
  | .cast b value ty => .value <$> cast b value ty
  | .br b goal => (fun _ => .nothing) <$> br b goal
  | .condBr b cond yes no => (fun _ => .nothing) <$> condBr b cond yes no
  | .retValue b value => (fun _ => .nothing) <$> retValue b value
  | .retVoid b => (fun _ => .nothing) <$> retVoid b
  | .unreachable b => (fun _ => .nothing) <$> terminate b .unreachable

/-! ## Operations that leave nothing behind if they fail -/

section Eq

variable {α β : Type} {f : Function}

/-- Once a check is passed, what follows starts from the function that was checked. -/
theorem check_seq {look : Function → Except Error α} {k : α → Builder β}
    {next : α → Except Error (β × Function)} (h : ∀ a, look f = .ok a → k a f = kept f (next a)) :
    (check look >>= k) f = kept f (look f >>= next) := by
  change EStateM.bind (check look) k f = _
  unfold EStateM.bind check
  cases hl : look f with
  | error e => rfl
  | ok a => exact h a hl

theorem require_seq {c : Prop} [Decidable c] {e : Error} {k : Unit → Builder β}
    {x : Except Error (β × Function)} (h : c → k () f = kept f x) :
    (require c e >>= k) f = kept f (if c then x else .error e) := by
  have hrun : (require c e >>= k) f =
      kept f ((if c then .ok () else .error e : Except Error Unit) >>= fun _ => x) := by
    refine check_seq fun _ hc => h ?_
    by_cases hnot : c
    · exact hnot
    · simp [hnot] at hc
  rw [hrun]
  congr 1
  split <;> rfl

theorem map_eq {act : Builder α} {x : Except Error (α × Function)} (h : act f = kept f x)
    (g : α → β) : (g <$> act) f = kept f (x.map (Prod.map g id)) := by
  change EStateM.map g act f = _
  unfold EStateM.map
  rw [h]
  cases x <;> rfl

variable (f) (b : Nat)

theorem push_eq (i : Instr) : push b i f =
    kept f (f.block b >>= fun old => old.push i >>= fun new => .ok ((), f.setBlock b new)) :=
  check_seq fun _ _ => check_seq fun _ _ => rfl

/-- The check that the block is open is what keeps the temporary from being taken in vain. -/
theorem define_eq (ty : Ty) (op : Operation) : define b ty op f = kept f (f.define b ty op) := by
  have hrun : define b ty op f = kept f (f.block b >>= fun old =>
      if old.isClosed = false then
        .ok (⟨.temp f.temps, ty⟩, { f.setBlock b
          { old with instrs := old.instrs ++ [⟨some ⟨.temp f.temps, ty⟩, op⟩] } with
          temps := f.temps + 1 })
      else .error (.resultInClosed op old.label)) := by
    refine check_seq fun old hb => require_seq fun hopen => ?_
    have hpush : push b ⟨some ⟨.temp f.temps, ty⟩, op⟩ { f with temps := f.temps + 1 } =
        .ok () { f.setBlock b
          { old with instrs := old.instrs ++ [⟨some ⟨.temp f.temps, ty⟩, op⟩] } with
          temps := f.temps + 1 } := by
      have hb' : ({ f with temps := f.temps + 1 } : Function).block b = .ok old := hb
      rw [push_eq, hb']
      simp [Block.push, hopen, kept, bind, Except.bind, Function.setBlock]
    change EStateM.bind (push b _) _ { f with temps := f.temps + 1 } = _
    unfold EStateM.bind
    rw [hpush]
    rfl
  rw [hrun]
  unfold Function.define
  cases f.block b with
  | error e => rfl
  | ok old => cases hc : old.isClosed <;> simp [bind, Except.bind, hc]

theorem perform_eq (op : Operation) :
    push b ⟨none, op⟩ f = kept f ((f.perform b op).map ((), ·)) := by
  rw [push_eq]
  unfold Function.perform
  cases f.block b with
  | error e => rfl
  | ok old => cases h : old.push ⟨none, op⟩ <;> simp [bind, Except.bind, h, Except.map]

theorem terminate_eq (t : Terminator) :
    terminate b t f = kept f ((f.terminate b t).map ((), ·)) := by
  have hrun : terminate b t f = kept f (f.block b >>= fun old => old.close t >>= fun new =>
      .ok ((), f.setBlock b new)) := check_seq fun _ _ => check_seq fun _ _ => rfl
  rw [hrun]
  unfold Function.terminate
  cases f.block b with
  | error e => rfl
  | ok old => cases h : old.close t <;> simp [bind, Except.bind, h, Except.map]

theorem target_seq {ptr : Value} {k : Ty → Builder α} {next : Ty → Except Error (α × Function)}
    (h : ∀ ty, k ty f = kept f (next ty)) : (target ptr >>= k) f =
      kept f (ptr.ty.target?.elim (.error (.notPointer ptr.ty)) next) := by
  have hrun : (target ptr >>= k) f = _ := check_seq fun ty _ => h ty
  rw [hrun]
  cases ptr.ty.target? <;> rfl

theorem load_eq (ptr : Value) : load b ptr f = kept f (f.load b ptr) := by
  have hrun : load b ptr f = _ := target_seq f fun ty => define_eq f b ty (.load ptr)
  rw [hrun]
  unfold Function.load
  cases ptr.ty.target? <;> rfl

theorem store_eq (value ptr : Value) :
    store b value ptr f = kept f ((f.store b value ptr).map ((), ·)) := by
  have hrun : store b value ptr f = _ := target_seq f fun ty => require_seq fun _ =>
    perform_eq f b (.store value ptr)
  rw [hrun]
  unfold Function.store
  cases ptr.ty.target? with
  | none => rfl
  | some ty =>
    simp only [Option.elim_some]
    split <;> rfl

theorem arith_eq (op : Arith) (l r : Value) : arith b op l r f = kept f (f.arith b op l r) := by
  have hrun : arith b op l r f = _ := require_seq fun _ => require_seq fun _ =>
    define_eq f b l.ty (.arith op l r)
  rw [hrun]
  unfold Function.arith
  by_cases h : l.ty = r.ty <;> simp [h]

theorem compare_eq (op : Relation) (l r : Value) :
    compare b op l r f = kept f (f.compare b op l r) := by
  have hrun : compare b op l r f = _ := require_seq fun _ => require_seq fun _ =>
    define_eq f b .i1 (.compare op l r)
  rw [hrun]
  unfold Function.compare
  by_cases h : l.ty = r.ty
  · cases hc : l.ty.isVoid || l.ty.isPtr <;> simp_all
  · simp [h]

theorem br_eq (goal : Nat) : br b goal f = kept f ((f.br b goal).map ((), ·)) := by
  have hrun : br b goal f = _ := check_seq fun next _ => terminate_eq f b (.br next.label)
  rw [hrun]
  unfold Function.br
  cases f.block goal <;> rfl

theorem condBr_eq (cond : Value) (yes no : Nat) :
    condBr b cond yes no f = kept f ((f.condBr b cond yes no).map ((), ·)) := by
  have hrun : condBr b cond yes no f = _ := require_seq fun _ => check_seq fun blockYes _ =>
    check_seq fun blockNo _ => terminate_eq f b (.brIf cond blockYes.label blockNo.label)
  rw [hrun]
  unfold Function.condBr
  split
  · cases f.block yes with
    | error e => rfl
    | ok blockYes => cases f.block no <;> rfl
  · rfl

theorem retValue_eq (value : Value) :
    retValue b value f = kept f ((f.retValue b value).map ((), ·)) := by
  have hrun : retValue b value f = _ := require_seq fun _ => terminate_eq f b (.ret (some value))
  rw [hrun]
  unfold Function.retValue
  split <;> rfl

theorem retVoid_eq : retVoid b f = kept f ((f.retVoid b).map ((), ·)) := by
  have hrun : retVoid b f = _ := require_seq fun _ => terminate_eq f b (.ret none)
  rw [hrun]
  unfold Function.retVoid
  split <;> rfl

theorem emitCall_eq (callee : Signature) (args : List Value) : emitCall b callee args f =
    kept f (if callee.ret.isVoid then
      ((f.perform b (.call callee.name callee.ret args)).map ((), ·)).map
        (Prod.map (fun _ => none) id)
      else (f.define b callee.ret (.call callee.name callee.ret args)).map (Prod.map some id)) := by
  unfold emitCall
  split
  · exact map_eq (perform_eq f b (.call callee.name callee.ret args)) fun _ => none
  · exact map_eq (define_eq f b callee.ret (.call callee.name callee.ret args)) some

theorem call_eq (callee : Signature) (args : List Value) :
    call b callee args f = kept f (f.call b callee args) := by
  have hrun : call b callee args f = _ := require_seq fun _ => check_seq fun _ _ =>
    emitCall_eq f b callee args
  rw [hrun]
  unfold Function.call
  by_cases hlen : callee.params.length = args.length
  · simp only [hlen, if_true, ne_eq, not_true_eq_false, if_false]
    cases Function.argumentError? callee.name 0 callee.params args with
    | some e => rfl
    | none =>
      cases callee.ret.isVoid with
      | true => cases f.perform b (.call callee.name callee.ret args) <;> rfl
      | false => cases f.define b callee.ret (.call callee.name callee.ret args) <;> rfl
  · simp only [hlen, if_false, ne_eq, not_false_eq_true, if_true]

theorem convert_eq (value : Value) (ty : Ty) : convert b value ty f =
    kept f ((Conversion.between? value.ty ty).elim (.error (.notConvertible value.ty ty))
      fun op => f.define b ty (.cast op value ty)) := by
  have hrun : convert b value ty f = _ := check_seq fun op _ =>
    define_eq f b ty (.cast op value ty)
  rw [hrun]
  cases Conversion.between? value.ty ty <;> rfl

theorem cast_eq (value : Value) (ty : Ty) :
    cast b value ty f = kept f (f.cast b value ty) := by
  unfold cast Function.cast
  split
  · rfl
  · cases value.fold ty with
    | some folded => rfl
    | none =>
      simp only [Option.elim_none]
      cases (if ty.isBool then Function.zero? value.ty else none) with
      | some zero => exact compare_eq f b .ne value zero
      | none =>
        rw [Option.elim_none, convert_eq]
        cases Conversion.between? value.ty ty <;> rfl

variable {f}

theorem giving_eq {act : Builder Value} {x : Except Error (Value × Function)}
    (h : act f = kept f x) : (Outcome.value <$> act) f = kept f (Function.giving x) :=
  map_eq h Outcome.value

theorem silent_eq {act : Builder Unit} {x : Except Error Function}
    (h : act f = kept f (x.map ((), ·))) :
    ((fun _ => Outcome.nothing) <$> act) f = kept f (Function.silent x) := by
  rw [map_eq h]
  cases x <;> rfl

end Eq

/-- A change in place that fails leaves the function as it was. -/
theorem edit_eq (e : Function.Edit) (f : Function) : edit e f = kept f (f.edit e) := by
  cases e with
  | addParam name ty => rfl
  | entry => rfl
  | addBlock label => rfl
  | alloca b ty => exact giving_eq (define_eq f b (.ptr ty) (.alloca ty))
  | load b ptr => exact giving_eq (load_eq f b ptr)
  | store b value ptr => exact silent_eq (store_eq f b value ptr)
  | arith b op lhs rhs => exact giving_eq (arith_eq f b op lhs rhs)
  | compare b op lhs rhs => exact giving_eq (compare_eq f b op lhs rhs)
  | call b callee args =>
    exact map_eq (call_eq f b callee args) fun v => v.elim Outcome.nothing Outcome.value
  | cast b value ty => exact giving_eq (cast_eq f b value ty)
  | br b goal => exact silent_eq (br_eq f b goal)
  | condBr b cond yes no => exact silent_eq (condBr_eq f b cond yes no)
  | retValue b value => exact silent_eq (retValue_eq f b value)
  | retVoid b => exact silent_eq (retVoid_eq f b)
  | unreachable b => exact silent_eq (terminate_eq f b .unreachable)

end Builder

/-! ## Modules -/

namespace Module

/-- Steps on the function of index `id`. What they leave of it is what the module then has, whether
they succeed or fail. -/
def within {α : Type} (id : Nat) (act : Builder α) : EStateM Error Module α := fun m =>
  match m.functions[id]? with
  | none => .error (.missingFunction id) m
  | some f =>
    match act f with
    | .ok a f' => .ok a (m.setFunction id f')
    | .error e f' => .error e (m.setFunction id f')

/-- Makes a change in place. -/
def editInPlace : Edit → EStateM Error Module Outcome
  | .addFunction name ret => fun m =>
    match m.lookup? name with
    | some _ => .error (.duplicateFunction name) m
    | none => .ok (.function m.functions.length)
        { m with functions := m.functions ++ [.empty name ret] }
  | .function id e => within id (Builder.edit e)

variable {m m' : Module}

theorem setFunction_self {id : Nat} {f : Function} (h : m.functions[id]? = some f) :
    m.setFunction id f = m := by
  obtain ⟨hid, rfl⟩ := List.getElem?_eq_some_iff.mp h
  rw [setFunction, List.set_getElem_self]

theorem editInPlace_eq (e : Edit) (m : Module) : editInPlace e m = kept m (m.edit e) := by
  cases e with
  | addFunction name ret =>
    simp only [editInPlace, edit, addFunction]
    cases m.lookup? name <;> rfl
  | function id e =>
    simp only [editInPlace, within, edit, function]
    cases hf : m.functions[id]? with
    | none => rfl
    | some f =>
      simp only [Builder.edit_eq]
      cases f.edit e with
      | error err => simp [kept, Except.map, setFunction_self hf]
      | ok x => rfl

theorem kept_eq_ok {σ α : Type} {s s' : σ} {x : Except Error (α × σ)} {a : α} :
    kept s x = .ok a s' ↔ x = .ok (a, s') := by
  cases x with
  | error e => simp [kept]
  | ok x => simp [kept, Prod.ext_iff]

theorem kept_eq_error {σ α : Type} {s s' : σ} {x : Except Error (α × σ)} {e : Error} :
    kept s x = .error e s' ↔ x = .error e ∧ s' = s := by
  cases x with
  | error e => simp [kept, eq_comm]
  | ok x => simp [kept]

theorem setFunction_eq_self_iff {id : Nat} {f f' : Function} (h : m.functions[id]? = some f) :
    m.setFunction id f' = m ↔ f' = f := by
  constructor
  · intro heq
    obtain ⟨hid, -⟩ := List.getElem?_eq_some_iff.mp h
    have hget := congrArg (fun m : Module => m.functions[id]?) heq
    rw [setFunction, List.getElem?_set_self hid, h] at hget
    exact Option.some.inj hget
  · rintro rfl
    exact setFunction_self h

/-- A conversion adds an instruction unless the value has the type already or is a constant that can
be converted. -/
theorem Effect.cast_eq_self_iff {id b : Nat} {v : Value} {ty : Ty} {o : Outcome}
    (h : m.Effect (.function id (.cast b v ty)) o m') :
    m' = m ↔ v.ty = ty ∨ (v.fold ty).isSome := by
  cases h with
  | @function _ _ _ f f' hf he =>
    rw [setFunction_eq_self_iff hf]
    cases he with
    | cast h =>
      refine iff_of_true rfl ?_
      rcases h with ⟨hty, -⟩ | ⟨-, hfold⟩
      · exact .inl hty
      · exact .inr (by rw [hfold]; rfl)
    | define he _ _ =>
      refine iff_of_false ?_ ?_
      · intro heq
        have htemps : f.temps + 1 = f.temps := congrArg Function.temps heq
        omega
      · cases he with
        | truth hty hfold | convert hty hfold => simp [hty, hfold]
    | perform he hop _ =>
      -- What a conversion adds always has a result.
      cases he <;> cases hop
    | finish he _ _ => cases he

/-- What changes in place leave behind: nothing if they fail, and otherwise one instruction or
terminator in the block they go to, or not even that. -/
theorem effect_of_editInPlace (m : Module) (e : Edit) :
    (∀ err m', editInPlace e m = .error err m' → m' = m ∧ m.edit e = .error err) ∧
    (∀ o m', editInPlace e m = .ok o m' → m.edit e = .ok (o, m') ∧ m.Effect e o m') ∧
    (∀ id b v ty o m', e = .function id (.cast b v ty) → editInPlace e m = .ok o m' →
      (m' = m ↔ v.ty = ty ∨ (v.fold ty).isSome)) := by
  simp only [editInPlace_eq, kept_eq_ok, kept_eq_error]
  refine ⟨?_, ?_, ?_⟩
  · rintro err m' ⟨h, rfl⟩
    exact ⟨rfl, h⟩
  · intro o m' h
    exact ⟨h, effect_of_edit h⟩
  · rintro id b v ty o m' rfl h
    exact (effect_of_edit h).cast_eq_self_iff

/-- A function with a block that has ended and one that has not. -/
def closedSample : Module :=
  (empty "sample").applyAll [.addFunction "f" .void, .function 0 .entry, .function 0 (.retVoid 0),
    .function 0 (.addBlock "next")]

/-- Where no storage can be reserved no temporary is taken, and where it can be one is. -/
theorem effect_closedSample :
    (∃ err m', editInPlace (.function 0 (.alloca 0 .i32)) closedSample = .error err m' ∧
      m' = closedSample) ∧
    (∃ o m', editInPlace (.function 0 (.alloca 1 .i32)) closedSample = .ok o m' ∧
      closedSample.Effect (.function 0 (.alloca 1 .i32)) o m') := by
  have hclosed := effect_of_editInPlace closedSample (.function 0 (.alloca 0 .i32))
  have hopen := effect_of_editInPlace closedSample (.function 0 (.alloca 1 .i32))
  exact ⟨⟨_, _, rfl, (hclosed.1 _ _ rfl).1⟩, ⟨_, _, rfl, (hopen.2.1 _ _ rfl).2⟩⟩

end Module
end ProcLang.IR

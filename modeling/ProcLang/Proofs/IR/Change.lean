import ProcLang.IR.Edit
import ProcLang.Proofs.IR.Building
import ProcLang.Proofs.IR.Label

/-!
# What changes do to a function

A change that succeeds adds a parameter, a block or an instruction, or it ends a block. It never
takes anything away, and a block that has ended stays as it is. Whoever makes the changes may name
any block and any operand: the checks that every change makes first are enough to keep all
instructions well typed.

## Main definitions

* `Operation.Gives`, `Terminator.Fits` — operations and terminators whose operands fit.
* `Function.Edit.Ends`, `Function.Edit.Adds` — the changes that end a block or add to it.
* `Function.Effect` — what a change does to a function and what it hands back.
* `Function.Change` — all that a change can do to a function.
* `Function.Keeps` — a function with all that another one has.
* `Function.WellBuilt` — what holds of a function whatever changes have been made to it.

## Main statements

* `Function.effect_of_edit`, `Function.Change.keeps`, `Function.Change.wellBuilt`.
-/
namespace ProcLang.IR

/-! ## Types -/

/-- The types that arithmetic is there for. -/
def Arith.types : Arith → List Ty
  | .add | .sub | .mul => [.i32, .i64, .float, .double]
  | .fdiv => [.float, .double]
  | .sdiv => [.i32, .i64]

/-- A conversion that is there to make values of type `target` of values of type `source`. -/
def Conversion.Suits (source target : Ty) : Conversion → Prop
  | .zext => source = .i1 ∧ target.isInt ∧ source.width < target.width
  | .sext => source.isInt ∧ target.isInt ∧ source.width < target.width
  | .trunc => source.isInt ∧ target.isInt ∧ target.width < source.width
  | .fpext => source.isFloat ∧ target.isFloat ∧ source.width < target.width
  | .fptrunc => source.isFloat ∧ target.isFloat ∧ target.width < source.width
  | .sitofp => source.isInt ∧ target.isFloat
  | .uitofp => source = .i1 ∧ target.isFloat
  | .fptosi => source.isFloat ∧ target.isInt

/-- An operation whose operands fit, and the type of its result if it has one. -/
inductive Operation.Gives : Operation → Option Ty → Prop where
  | alloca (ty : Ty) : Gives (.alloca ty) (some (.ptr ty))
  | load {ptr : Value} {ty : Ty} (h : ptr.ty = .ptr ty) : Gives (.load ptr) (some ty)
  | store {value ptr : Value} (h : ptr.ty = .ptr value.ty) : Gives (.store value ptr) none
  | arith {op : Arith} {l r : Value} (h : l.ty = r.ty) (hop : l.ty ∈ op.types) :
      Gives (.arith op l r) (some l.ty)
  | compare {op : Relation} {l r : Value} (h : l.ty = r.ty) (hvoid : l.ty ≠ .void)
      (hptr : ∀ ty, l.ty ≠ .ptr ty) : Gives (.compare op l r) (some .i1)
  | call {function : String} {ret : Ty} {args : List Value} (h : ret ≠ .void) :
      Gives (.call function ret args) (some ret)
  | callNothing {function : String} {args : List Value} : Gives (.call function .void args) none
  | cast {op : Conversion} {value : Value} {ty : Ty} (h : op.Suits value.ty ty) :
      Gives (.cast op value ty) (some ty)

/-- A terminator that fits into a function that returns a value of type `ret`. -/
def Terminator.Fits (ret : Ty) : Terminator → Prop
  | .ret (some v) => v.ty = ret
  | .ret none => ret = .void
  | .brIf cond _ _ => cond.ty = .i1
  | .br _ | .unreachable => True

theorem Ty.isVoid_iff {ty : Ty} : ty.isVoid = true ↔ ty = .void := by cases ty <;> simp [isVoid]

theorem Arith.mem_types {op : Arith} {ty : Ty} (h : op.accepts ty = true) : ty ∈ op.types := by
  cases op <;> cases ty <;> simp_all [accepts, types, Ty.isNumber, Ty.isInt, Ty.isFloat]

theorem Conversion.suits_of_between {source target : Ty} {op : Conversion}
    (hne : source ≠ target) (h : between? source target = some op) : op.Suits source target := by
  cases source <;> cases target <;> cases h <;>
    simp_all [Suits, Ty.isInt, Ty.isFloat, Ty.width, Ty.bits?]

theorem Operation.gives_compare {op : Relation} {l r : Value} (h : l.ty = r.ty)
    (hnot : (l.ty.isVoid || l.ty.isPtr) = false) : (Operation.compare op l r).Gives (some .i1) := by
  refine .compare h ?_ ?_
  · intro hvoid
    simp [hvoid, Ty.isVoid] at hnot
  · intro ty hptr
    simp [hptr, Ty.isPtr] at hnot

namespace Function

/-! ## Changes -/

/-- A function with one more block. -/
def extend (f : Function) (base : String) : Function :=
  { f with blocks := f.blocks ++ [.empty (blockLabel base f.blocks.length)] }

/-- The change asks that block `b` of `f` end with `t`. Targets of branches are asked for by their
indices and written down by their labels. -/
inductive Edit.Ends (f : Function) (b : Nat) : Edit → Terminator → Prop where
  | br {target : Nat} {block : Block} (h : f.blocks[target]? = some block) :
      Ends f b (.br b target) (.br block.label)
  | condBr {cond : Value} {yes no : Nat} {blockYes blockNo : Block}
      (hyes : f.blocks[yes]? = some blockYes) (hno : f.blocks[no]? = some blockNo) :
      Ends f b (.condBr b cond yes no) (.brIf cond blockYes.label blockNo.label)
  | retValue {value : Value} : Ends f b (.retValue b value) (.ret (some value))
  | retVoid : Ends f b (.retVoid b) (.ret none)
  | unreachable : Ends f b (.unreachable b) .unreachable

/-- The change asks for the operation `op` at the end of block `b`. A conversion asks for none if
the value has the type already, or is a constant that can be converted. -/
inductive Edit.Adds (b : Nat) : Edit → Operation → Prop where
  | alloca (ty : Ty) : Adds b (.alloca b ty) (.alloca ty)
  | load (ptr : Value) : Adds b (.load b ptr) (.load ptr)
  | store (value ptr : Value) : Adds b (.store b value ptr) (.store value ptr)
  | arith (op : Arith) (l r : Value) : Adds b (.arith b op l r) (.arith op l r)
  | compare (op : Relation) (l r : Value) : Adds b (.compare b op l r) (.compare op l r)
  | call (callee : Signature) (args : List Value) :
      Adds b (.call b callee args) (.call callee.name callee.ret args)
  | truth {value zero : Value} (h : value.ty ≠ .i1) (hfold : value.fold .i1 = none) :
      Adds b (.cast b value .i1) (.compare .ne value zero)
  | convert {op : Conversion} {value : Value} {ty : Ty} (h : value.ty ≠ ty)
      (hfold : value.fold ty = none) : Adds b (.cast b value ty) (.cast op value ty)

/-- `f.Effect e o f'`: the change `e` hands back `o` and makes `f'` of the function `f`. -/
inductive Effect (f : Function) : Edit → Outcome → Function → Prop where
  | addParam (name : String) (ty : Ty) : Effect f (.addParam name ty) (.value ⟨.param name, ty⟩)
      { f with params := f.params ++ [(name, ty)] }
  | entry : Effect f .entry (.block 0) f.entry
  | addBlock (label : String) :
      Effect f (.addBlock label) (.block f.entry.blocks.length) (f.entry.extend label)
  /-- A conversion that needs no instruction. -/
  | cast {b : Nat} {v w : Value} {ty : Ty}
      (h : v.ty = ty ∧ w = v ∨ v.ty ≠ ty ∧ v.fold ty = some w) :
      Effect f (.cast b v ty) (.value w) f
  | define {e : Edit} {b : Nat} {ty : Ty} {op : Operation} (he : e.Adds b op)
      (hop : op.Gives (some ty)) (ho : f.Open b) :
      Effect f e (.value ⟨.temp f.temps, ty⟩) (f.emit b [⟨some ⟨.temp f.temps, ty⟩, op⟩])
  | perform {e : Edit} {b : Nat} {op : Operation} (he : e.Adds b op) (hop : op.Gives none)
      (ho : f.Open b) : Effect f e .nothing (f.emit b [⟨none, op⟩])
  | finish {e : Edit} {b : Nat} {t : Terminator} (he : e.Ends f b t) (ht : t.Fits f.ret)
      (ho : f.Open b) : Effect f e .nothing (f.finish b t)

/-- `f.Change e f'`: the change `e` makes `f'` of the function `f`. -/
inductive Change (f : Function) (e : Edit) : Function → Prop where
  | same : Change f e f
  | param (p : String × Ty) : Change f e { f with params := f.params ++ [p] }
  | entry : Change f e f.entry
  | block (label : String) : Change f e (f.entry.extend label)
  | define {b : Nat} {ty : Ty} {op : Operation} (h : f.Open b) (hop : op.Gives (some ty)) :
      Change f e (f.emit b [⟨some ⟨.temp f.temps, ty⟩, op⟩])
  | perform {b : Nat} {op : Operation} (h : f.Open b) (hop : op.Gives none) :
      Change f e (f.emit b [⟨none, op⟩])
  | finish {b : Nat} {t : Terminator} (h : f.Open b) (ht : t.Fits f.ret) (he : e.Ends f b t) :
      Change f e (f.finish b t)

section Inversion

variable {f f' : Function} {e : Edit} {b : Nat} {o : Outcome}

theorem giving_eq_ok {r : Except Error (Value × Function)} (h : giving r = .ok (o, f')) :
    ∃ v, o = .value v ∧ r = .ok (v, f') := by
  cases r with
  | error e => cases h
  | ok x =>
    cases h
    exact ⟨x.1, rfl, rfl⟩

theorem silent_eq_ok {r : Except Error Function} (h : silent r = .ok (o, f')) :
    o = .nothing ∧ r = .ok f' := by
  cases r with
  | error e => cases h
  | ok f =>
    cases h
    exact ⟨rfl, rfl⟩

theorem Effect.of_define {ty : Ty} {op : Operation} {v : Value} (he : e.Adds b op)
    (hop : op.Gives (some ty)) (h : f.define b ty op = .ok (v, f')) : f.Effect e (.value v) f' := by
  obtain ⟨ho, rfl, rfl⟩ := define_eq_ok.mp h
  exact .define he hop ho

theorem Effect.of_perform {op : Operation} (he : e.Adds b op) (hop : op.Gives none)
    (h : f.perform b op = .ok f') : f.Effect e .nothing f' := by
  obtain ⟨ho, rfl⟩ := perform_eq_ok.mp h
  exact .perform he hop ho

theorem Effect.of_terminate {t : Terminator} (h : f.terminate b t = .ok f') (ht : t.Fits f.ret)
    (he : e.Ends f b t) : f.Effect e .nothing f' := by
  obtain ⟨ho, rfl⟩ := terminate_eq_ok.mp h
  exact .finish he ht ho

theorem Effect.of_compare {op : Relation} {l r v : Value} (he : e.Adds b (.compare op l r))
    (h : f.compare b op l r = .ok (v, f')) : f.Effect e (.value v) f' := by
  obtain ⟨hty, hnot, hd⟩ := compare_ok h
  exact .of_define he (Operation.gives_compare hty hnot) hd

theorem Effect.of_cast {v w : Value} {ty : Ty} (h : f.cast b v ty = .ok (w, f')) :
    f.Effect (.cast b v ty) (.value w) f' := by
  obtain ⟨hty, hw, rfl⟩ | ⟨hty, hfold, rfl⟩ | ⟨hty, hfold, h⟩ := cast_ok h
  · exact .cast (.inl ⟨hty, hw⟩)
  · exact .cast (.inr ⟨hty, hfold⟩)
  · obtain ⟨zero, rfl, -, hc⟩ | ⟨op, hop, hd⟩ := h
    · exact .of_compare (.truth hty hfold) hc
    · exact .of_define (.convert hty hfold) (.cast (Conversion.suits_of_between hty hop)) hd

theorem Effect.of_call {sig : Signature} {args : List Value} {v : Option Value}
    (h : f.call b sig args = .ok (v, f')) :
    f.Effect (.call b sig args) (v.elim .nothing .value) f' := by
  obtain ⟨hret, rfl, hp⟩ | ⟨hret, w, rfl, hd⟩ := call_ok h
  · refine .of_perform (.call sig args) ?_ hp
    rw [Ty.isVoid_iff.mp hret]
    exact .callNothing
  · refine .of_define (.call sig args) (.call ?_) hd
    intro hvoid
    simp [hvoid, Ty.isVoid] at hret

theorem Effect.of_br {target : Nat} (h : f.br b target = .ok f') :
    f.Effect (.br b target) .nothing f' := by
  unfold br at h
  cases hb : f.block target with
  | error e => simp [hb] at h
  | ok block =>
    rw [hb] at h
    exact .of_terminate h trivial (.br (block_eq_ok.mp hb))

theorem Effect.of_condBr {cond : Value} {yes no : Nat} (h : f.condBr b cond yes no = .ok f') :
    f.Effect (.condBr b cond yes no) .nothing f' := by
  unfold condBr at h
  split at h
  next hcond =>
    have hfits : cond.ty = .i1 := by
      cases hty : cond.ty <;> simp_all [Ty.isBool]
    cases hy : f.block yes with
    | error e => simp [hy] at h
    | ok blockYes =>
      cases hn : f.block no with
      | error e => simp [hy, hn] at h
      | ok blockNo =>
        simp only [hy, hn] at h
        exact .of_terminate h hfits (.condBr (block_eq_ok.mp hy) (block_eq_ok.mp hn))
  next => cases h

theorem Effect.of_retValue {value : Value} (h : f.retValue b value = .ok f') :
    f.Effect (.retValue b value) .nothing f' := by
  unfold retValue at h
  split at h
  next hty => exact .of_terminate h hty .retValue
  next => cases h

theorem Effect.of_retVoid (h : f.retVoid b = .ok f') : f.Effect (.retVoid b) .nothing f' := by
  unfold retVoid at h
  split at h
  next hty => exact .of_terminate h (Ty.isVoid_iff.mp hty) .retVoid
  next => cases h

/-- What a change that succeeds does and hands back. -/
theorem effect_of_edit (h : f.edit e = .ok (o, f')) : f.Effect e o f' := by
  cases e with
  | addParam name ty =>
    cases h
    exact .addParam name ty
  | entry =>
    cases h
    exact .entry
  | addBlock label =>
    cases h
    exact .addBlock label
  | alloca b ty =>
    obtain ⟨v, rfl, hr⟩ := giving_eq_ok h
    exact .of_define (.alloca ty) (.alloca ty) hr
  | load b ptr =>
    obtain ⟨v, rfl, hr⟩ := giving_eq_ok h
    obtain ⟨ty, hty, hd⟩ := load_ok hr
    exact .of_define (.load ptr) (.load hty) hd
  | store b value ptr =>
    obtain ⟨rfl, hr⟩ := silent_eq_ok h
    obtain ⟨hty, hp⟩ := store_ok hr
    exact .of_perform (.store value ptr) (.store hty) hp
  | arith b op lhs rhs =>
    obtain ⟨v, rfl, hr⟩ := giving_eq_ok h
    obtain ⟨hty, hop, hd⟩ := arith_ok hr
    exact .of_define (.arith op lhs rhs) (.arith hty (Arith.mem_types hop)) hd
  | compare b op lhs rhs =>
    obtain ⟨v, rfl, hr⟩ := giving_eq_ok h
    exact .of_compare (.compare op lhs rhs) hr
  | call b callee args =>
    cases hc : f.call b callee args with
    | error e => simp [edit, hc, Except.map] at h
    | ok x =>
      simp only [edit, hc, Except.map, Except.ok.injEq, Prod.mk.injEq] at h
      obtain ⟨rfl, rfl⟩ := h
      exact .of_call hc
  | cast b value ty =>
    obtain ⟨v, rfl, hr⟩ := giving_eq_ok h
    exact .of_cast hr
  | br b target =>
    obtain ⟨rfl, hr⟩ := silent_eq_ok h
    exact .of_br hr
  | condBr b cond yes no =>
    obtain ⟨rfl, hr⟩ := silent_eq_ok h
    exact .of_condBr hr
  | retValue b value =>
    obtain ⟨rfl, hr⟩ := silent_eq_ok h
    exact .of_retValue hr
  | retVoid b =>
    obtain ⟨rfl, hr⟩ := silent_eq_ok h
    exact .of_retVoid hr
  | unreachable b =>
    obtain ⟨rfl, hr⟩ := silent_eq_ok h
    exact .of_terminate hr trivial .unreachable

theorem Effect.change (h : f.Effect e o f') : f.Change e f' := by
  cases h with
  | addParam name ty => exact .param (name, ty)
  | entry => exact .entry
  | addBlock label => exact .block label
  | cast _ => exact .same
  | define _ hop ho => exact .define ho hop
  | perform _ hop ho => exact .perform ho hop
  | finish he ht ho => exact .finish ho ht he

end Inversion

/-! ## What a change keeps -/

/-- `f'` has the name and the result type of `f`, and its blocks under the same labels and indices;
blocks that have ended are the same. -/
structure Keeps (f f' : Function) : Prop where
  name : f'.name = f.name
  ret : f'.ret = f.ret
  blocks : ∀ (i : Nat) (b : Block), f.blocks[i]? = some b →
    ∃ b', f'.blocks[i]? = some b' ∧ b'.label = b.label ∧ (b.isClosed = true → b' = b)

section Keeps

variable {f f' f'' : Function} {b : Nat}

theorem Keeps.refl (f : Function) : f.Keeps f :=
  ⟨rfl, rfl, fun _ b hb => ⟨b, hb, rfl, fun _ => rfl⟩⟩

theorem Keeps.trans (h : f.Keeps f') (h' : f'.Keeps f'') : f.Keeps f'' := by
  refine ⟨h'.name.trans h.name, h'.ret.trans h.ret, ?_⟩
  intro i b hb
  obtain ⟨b', hb', hl, hsame⟩ := h.blocks i b hb
  obtain ⟨b'', hb'', hl', hsame'⟩ := h'.blocks i b' hb'
  refine ⟨b'', hb'', hl'.trans hl, ?_⟩
  intro hc
  obtain rfl := hsame hc
  exact hsame' hc

theorem getElem?_extend {base : String} {i : Nat} {c : Block}
    (h : (f.extend base).blocks[i]? = some c) :
    f.blocks[i]? = some c ∨ (i = f.blocks.length ∧ c = .empty (blockLabel base i)) := by
  by_cases hi : i < f.blocks.length
  · rw [extend, List.getElem?_append_left hi] at h
    exact .inl h
  · rw [extend, List.getElem?_append_right (by omega), List.getElem?_singleton] at h
    obtain ⟨hzero, hc⟩ := Option.ite_none_right_eq_some.mp h
    obtain rfl : i = f.blocks.length := by omega
    exact .inr ⟨rfl, (Option.some.inj hc).symm⟩

theorem keeps_extend (f : Function) (base : String) : f.Keeps (f.extend base) := by
  refine ⟨rfl, rfl, ?_⟩
  intro i b hb
  refine ⟨b, ?_, rfl, fun _ => rfl⟩
  obtain ⟨hi, -⟩ := List.getElem?_eq_some_iff.mp hb
  rw [extend, List.getElem?_append_left hi, hb]

/-- A function has an entry, or its entry is the block that is made first. -/
theorem entry_eq (f : Function) : f.entry = f ∨ (f.blocks = [] ∧ f.entry = f.extend "entry") := by
  unfold entry
  split
  next h => exact .inr ⟨h, by simp [extend, h, entryLabel_eq]⟩
  next => exact .inl rfl

theorem keeps_entry (f : Function) : f.Keeps f.entry := by
  rcases entry_eq f with h | ⟨-, h⟩
  · rw [h]
    exact .refl f
  · rw [h]
    exact keeps_extend f _

/-- A change to the instructions or the end of an open block. -/
theorem keeps_modify (g : Block → Block) (ho : f.Open b) (hg : ∀ c, (g c).label = c.label)
    (temps : Nat) : f.Keeps { f with blocks := f.blocks.modify b g, temps := temps } := by
  refine ⟨rfl, rfl, ?_⟩
  intro i c hc
  by_cases hi : b = i
  · subst hi
    obtain ⟨c', hc', hopen⟩ := ho
    obtain rfl : c = c' := Option.some.inj (hc.symm.trans hc')
    refine ⟨g c, by simp [hc], hg c, ?_⟩
    intro hclosed
    simp [Block.isClosed, hopen] at hclosed
  · exact ⟨c, by simp [hi, hc], rfl, fun _ => rfl⟩

theorem Change.keeps {e : Edit} (h : f.Change e f') : f.Keeps f' := by
  cases h with
  | same => exact .refl f
  | param p => exact ⟨rfl, rfl, (Keeps.refl f).blocks⟩
  | entry => exact keeps_entry f
  | block label => exact (keeps_entry f).trans (keeps_extend _ label)
  | define ho _ => exact keeps_modify (·.append _) ho (fun _ => rfl) _
  | perform ho _ => exact keeps_modify (·.append _) ho (fun _ => rfl) _
  | finish ho _ _ => exact keeps_modify (·.ended _) ho (fun _ => rfl) _

theorem Edit.Ends.keeps {e : Edit} {t : Terminator} (hk : f.Keeps f') (h : e.Ends f b t) :
    e.Ends f' b t := by
  cases h with
  | br h =>
    obtain ⟨block, hb, hl, -⟩ := hk.blocks _ _ h
    exact hl ▸ .br hb
  | condBr hyes hno =>
    obtain ⟨blockYes, hy, hly, -⟩ := hk.blocks _ _ hyes
    obtain ⟨blockNo, hn, hln, -⟩ := hk.blocks _ _ hno
    exact hly ▸ hln ▸ .condBr hy hn
  | retValue => exact .retValue
  | retVoid => exact .retVoid
  | unreachable => exact .unreachable

end Keeps

/-! ## Blocks that end -/

section Ends

variable {f f' : Function} {b : Nat} {t : Terminator}

/-- Block `b` of a function ends with `t`. -/
def EndsWith (f : Function) (b : Nat) (t : Terminator) : Prop :=
  ∃ block, f.blocks[b]? = some block ∧ block.terminator = some t

theorem EndsWith.of_extend {base : String} (h : (f.extend base).EndsWith b t) : f.EndsWith b t := by
  obtain ⟨block, hb, ht⟩ := h
  rcases getElem?_extend hb with hb | ⟨-, rfl⟩
  · exact ⟨block, hb, ht⟩
  · cases ht

theorem EndsWith.of_entry (h : f.entry.EndsWith b t) : f.EndsWith b t := by
  rcases entry_eq f with heq | ⟨-, heq⟩
  · rwa [heq] at h
  · rw [heq] at h
    exact h.of_extend

theorem EndsWith.of_emit {c : Nat} {is : List Instr} (h : (f.emit c is).EndsWith b t) :
    f.EndsWith b t := by
  obtain ⟨block, hb, ht⟩ := h
  simp only [emit, List.getElem?_modify] at hb
  obtain ⟨block', hb', rfl⟩ := Option.map_eq_some_iff.mp hb
  refine ⟨block', hb', ?_⟩
  split at ht
  · exact ht
  · exact ht

/-- A block ends as it did before, or as the change asks. -/
theorem Change.endsWith {e : Edit} (h : f.Change e f') (ht : f'.EndsWith b t) :
    f.EndsWith b t ∨ e.Ends f b t := by
  cases h with
  | same => exact .inl ht
  | param p => exact .inl ht
  | entry => exact .inl ht.of_entry
  | block label => exact .inl ht.of_extend.of_entry
  | define ho _ => exact .inl ht.of_emit
  | perform ho _ => exact .inl ht.of_emit
  | @finish c t' ho _ he =>
    obtain ⟨block, hb, ht⟩ := ht
    simp only [Function.finish, List.getElem?_modify] at hb
    obtain ⟨block', hb', rfl⟩ := Option.map_eq_some_iff.mp hb
    by_cases hc : c = b
    · subst hc
      simp only [if_true, Block.ended, Option.some.injEq] at ht
      exact .inr (ht ▸ he)
    · rw [if_neg hc] at ht
      exact .inl ⟨block', hb', ht⟩

end Ends

/-! ## Well-built functions -/

/-- What holds of a function whatever changes have been made to it. -/
structure WellBuilt (f : Function) : Prop where
  first : ∀ b, f.blocks[0]? = some b → b.label = entryLabel
  labelled : f.Labelled
  /-- The temporaries are numbered without gaps, and each is defined by one instruction. -/
  defined : f.defined.Perm ((List.range f.temps).map .temp)
  instrs : ∀ b ∈ f.blocks, ∀ i ∈ b.instrs, i.op.Gives (i.result.map (·.ty))
  terminators : ∀ b ∈ f.blocks, ∀ t, b.terminator = some t → t.Fits f.ret

theorem wellBuilt_empty (name : String) (ret : Ty) : (empty name ret).WellBuilt where
  first := by simp [empty]
  labelled := by
    intro i b hb
    simp [empty] at hb
  defined := .refl _
  instrs := by simp [empty]
  terminators := by simp [empty]

section WellBuilt

variable {f f' : Function} {b : Nat}

theorem WellBuilt.extend (h : f.WellBuilt) {base : String}
    (hfirst : f.blocks = [] → base = "entry") : (f.extend base).WellBuilt where
  first := by
    intro b hb
    cases hf : f.blocks with
    | nil =>
      simp only [Function.extend, hf, hfirst hf, List.nil_append, List.length_nil] at hb
      cases hb
      exact entryLabel_eq.symm
    | cons c cs =>
      simp only [Function.extend, hf, List.cons_append, List.getElem?_cons_zero] at hb
      cases hb
      exact h.first _ (by simp [hf])
  labelled := by
    intro i b hb
    rcases getElem?_extend hb with hb | ⟨-, rfl⟩
    · exact h.labelled i b hb
    · exact ⟨base, rfl⟩
  defined := by simpa [Function.extend, Function.defined, Block.empty] using h.defined
  instrs := by
    intro b hb i hi
    rcases List.mem_append.mp hb with hb | hb
    · exact h.instrs b hb i hi
    · obtain rfl := List.mem_singleton.mp hb
      cases hi
  terminators := by
    intro b hb t ht
    rcases List.mem_append.mp hb with hb | hb
    · exact h.terminators b hb t ht
    · obtain rfl := List.mem_singleton.mp hb
      cases ht

theorem WellBuilt.entry (h : f.WellBuilt) : f.entry.WellBuilt := by
  rcases entry_eq f with heq | ⟨-, heq⟩
  · rwa [heq]
  · rw [heq]
    exact h.extend fun _ => rfl

theorem entry_ne_nil (f : Function) : f.entry.blocks ≠ [] := by
  unfold entry
  split <;> simp_all

theorem mem_modify {α : Type} {l : List α} {i : Nat} {g : α → α} {a : α} (h : a ∈ l.modify i g) :
    ∃ a' ∈ l, a = a' ∨ a = g a' := by
  obtain ⟨j, hj⟩ := List.mem_iff_getElem?.mp h
  rw [List.getElem?_modify] at hj
  obtain ⟨a', ha', rfl⟩ := Option.map_eq_some_iff.mp hj
  refine ⟨a', List.mem_of_getElem? ha', ?_⟩
  split
  · exact .inr rfl
  · exact .inl rfl

/-- A change to a block that keeps the labels. -/
theorem WellBuilt.modify (h : f.WellBuilt) (g : Block → Block) (hg : ∀ c, (g c).label = c.label)
    {temps : Nat} (hdefined : (definedBy ((f.blocks.modify b g).flatMap (·.instrs))).Perm
      ((List.range temps).map .temp))
    (hinstrs : ∀ c ∈ f.blocks, ∀ i ∈ (g c).instrs, i ∈ c.instrs ∨ i.op.Gives (i.result.map (·.ty)))
    (hends : ∀ c ∈ f.blocks, ∀ t, (g c).terminator = some t →
      c.terminator = some t ∨ t.Fits f.ret) :
    ({ f with blocks := f.blocks.modify b g, temps := temps } : Function).WellBuilt where
  first := by
    intro c hc
    simp only [List.getElem?_modify] at hc
    obtain ⟨c', hc', rfl⟩ := Option.map_eq_some_iff.mp hc
    split
    · rw [hg, h.first c' hc']
    · exact h.first c' hc'
  labelled := by
    intro i c hc
    simp only [List.getElem?_modify] at hc
    obtain ⟨c', hc', rfl⟩ := Option.map_eq_some_iff.mp hc
    split
    · rw [hg]
      exact h.labelled i c' hc'
    · exact h.labelled i c' hc'
  defined := hdefined
  instrs := by
    intro c hc i hi
    obtain ⟨c', hc', rfl | rfl⟩ := mem_modify hc
    · exact h.instrs _ hc' i hi
    · rcases hinstrs c' hc' i hi with hold | hnew
      · exact h.instrs c' hc' i hold
      · exact hnew
  terminators := by
    intro c hc t ht
    obtain ⟨c', hc', rfl | rfl⟩ := mem_modify hc
    · exact h.terminators _ hc' t ht
    · rcases hends c' hc' t ht with hold | hnew
      · exact h.terminators c' hc' t hold
      · exact hnew

theorem flatMap_instrs_append {bs : List Block} {b : Nat} {block : Block} (h : bs[b]? = some block)
    (is : List Instr) : ((bs.modify b (·.append is)).flatMap (·.instrs)).Perm
      (bs.flatMap (·.instrs) ++ is) := by
  induction bs generalizing b with
  | nil => simp at h
  | cons c bs ih =>
    cases b with
    | zero =>
      simp only [List.modify_zero_cons, List.flatMap_cons, Block.append, List.append_assoc]
      exact List.perm_append_comm.append_left _
    | succ b =>
      simp only [List.modify_succ_cons, List.flatMap_cons, List.append_assoc]
      exact (ih h).append_left _

theorem flatMap_instrs_ended (bs : List Block) (b : Nat) (t : Terminator) :
    (bs.modify b (·.ended t)).flatMap (·.instrs) = bs.flatMap (·.instrs) := by
  induction bs generalizing b with
  | nil => simp
  | cons c bs ih =>
    cases b with
    | zero => simp [Block.ended]
    | succ b => simp [ih]

/-- An instruction added to an open block. A value that it defines has the next number. -/
theorem WellBuilt.emit (h : f.WellBuilt) (ho : f.Open b) {i : Instr}
    (hop : i.op.Gives (i.result.map (·.ty)))
    (hresult : definedBy [i] = (List.range' f.temps (results [i])).map .temp) :
    (f.emit b [i]).WellBuilt := by
  obtain ⟨block, hb, -⟩ := ho
  refine h.modify (·.append [i]) (fun _ => rfl) ?_ ?_ (fun _ _ _ ht => .inl ht)
  · have hperm : (definedBy ((f.blocks.modify b (·.append [i])).flatMap (·.instrs))).Perm
        (f.defined ++ definedBy [i]) := by
      rw [Function.defined, ← definedBy_append]
      exact (flatMap_instrs_append hb [i]).filterMap _
    refine hperm.trans ?_
    -- What the instruction defines comes behind the numbers that are taken.
    rw [hresult, List.range_eq_range', ← List.range'_append_1, List.map_append, Nat.zero_add,
      ← List.range_eq_range']
    exact h.defined.append_right _
  · intro c _ j hj
    rcases List.mem_append.mp hj with hj | hj
    · exact .inl hj
    · obtain rfl := List.mem_singleton.mp hj
      exact .inr hop

theorem WellBuilt.finish (h : f.WellBuilt) {t : Terminator} (ht : t.Fits f.ret) :
    (f.finish b t).WellBuilt := by
  refine h.modify (·.ended t) (fun _ => rfl) ?_ (fun _ _ _ hi => .inl hi) ?_
  · rw [flatMap_instrs_ended]
    exact h.defined
  · intro c _ t' ht'
    cases ht'
    exact .inr ht

/-- Changes keep a function well built. -/
theorem Change.wellBuilt {e : Edit} (h : f.WellBuilt) (hs : f.Change e f') : f'.WellBuilt := by
  cases hs with
  | same => exact h
  | param p => exact ⟨h.first, h.labelled, h.defined, h.instrs, h.terminators⟩
  | entry => exact h.entry
  | block label => exact h.entry.extend fun hnil => absurd hnil f.entry_ne_nil
  | define ho hop => exact h.emit ho hop rfl
  | perform ho hop => exact h.emit ho hop rfl
  | finish _ ht _ => exact h.finish ht

end WellBuilt
end Function
end ProcLang.IR

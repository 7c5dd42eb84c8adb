import ProcLang.IR.Module
import ProcLang.Proofs.IR.Building

/-!
# Renaming parameters

Code names its parameters where it reads them, and in the header of its function. Every operation
that succeeds also succeeds on code and operands in which the parameters have other names, and adds
the same instructions with these names: no operation looks at the name of a parameter.

## Main definitions

* `Value.rename`, `Function.rename`, `Module.rename` — the same with parameters renamed.

## Main statements

* `Function.rename_define`, `Function.rename_cast`, … — operations go along with a renaming.
-/
namespace ProcLang.IR

section Definitions

variable (ρ : String → String)

/-- What an operand is, with parameters renamed. -/
def Value.Kind.rename : Value.Kind → Value.Kind
  | .temp n => .temp n
  | .param name => .param (ρ name)
  | .const c => .const c

/-- An operand with parameters renamed. -/
def Value.rename (v : Value) : Value := ⟨v.kind.rename ρ, v.ty⟩

/-- An operation with parameters renamed. -/
def Operation.rename : Operation → Operation
  | .alloca ty => .alloca ty
  | .load ptr => .load (ptr.rename ρ)
  | .store value ptr => .store (value.rename ρ) (ptr.rename ρ)
  | .arith op lhs rhs => .arith op (lhs.rename ρ) (rhs.rename ρ)
  | .compare op lhs rhs => .compare op (lhs.rename ρ) (rhs.rename ρ)
  | .call function ret args => .call function ret (args.map (·.rename ρ))
  | .cast op value ty => .cast op (value.rename ρ) ty

/-- An instruction with parameters renamed. -/
def Instr.rename (i : Instr) : Instr := ⟨i.result.map (·.rename ρ), i.op.rename ρ⟩

/-- A terminator with parameters renamed. -/
def Terminator.rename : Terminator → Terminator
  | .ret value => .ret (value.map (·.rename ρ))
  | .br target => .br target
  | .brIf cond yes no => .brIf (cond.rename ρ) yes no
  | .unreachable => .unreachable

/-- A block with parameters renamed. -/
def Block.rename (b : Block) : Block :=
  ⟨b.label, b.instrs.map (·.rename ρ), b.terminator.map (·.rename ρ)⟩

/-- A function with its parameters renamed, in its header and in its blocks. -/
def Function.rename (f : Function) : Function :=
  { f with params := f.params.map fun q => (ρ q.1, q.2), blocks := f.blocks.map (·.rename ρ) }

/-- A module with the parameters of its functions renamed. -/
def Module.rename (m : Module) : Module := { m with functions := m.functions.map (·.rename ρ) }

end Definitions

/-! ## Renaming nothing -/

@[simp] theorem Value.rename_id : Value.rename id = id := by
  funext v
  obtain ⟨kind, ty⟩ := v
  cases kind <;> rfl

@[simp] theorem Operation.rename_id : Operation.rename id = id := by
  funext op
  cases op <;> simp [Operation.rename]

@[simp] theorem Instr.rename_id : Instr.rename id = id := by
  funext i
  simp [Instr.rename]

@[simp] theorem Terminator.rename_id : Terminator.rename id = id := by
  funext t
  cases t <;> simp [Terminator.rename]

@[simp] theorem Block.rename_id : Block.rename id = id := by
  funext b
  simp [Block.rename]

@[simp] theorem Function.rename_id : Function.rename id = id := by
  funext f
  simp [Function.rename]

@[simp] theorem Module.rename_id : Module.rename id = id := by
  funext m
  simp [Module.rename]

theorem map_modify {α β : Type} {g : α → β} {f : α → α} {k : β → β} (h : ∀ a, g (f a) = k (g a))
    (l : List α) (i : Nat) : (l.modify i f).map g = (l.map g).modify i k := by
  apply List.ext_getElem?
  intro j
  grind

/-! ## Operands -/

section Operations

variable {ρ : String → String}

@[simp] theorem Value.ty_rename (v : Value) : (v.rename ρ).ty = v.ty := rfl

@[simp] theorem Value.rename_ofLiteral (c : Literal) :
    (Value.ofLiteral c).rename ρ = .ofLiteral c := by
  cases c <;> rfl

/-- Only constants are folded, and they have no names. -/
theorem Value.rename_fold (v : Value) (ty : Ty) :
    (v.rename ρ).fold ty = (v.fold ty).map (·.rename ρ) := by
  obtain ⟨kind, vty⟩ := v
  cases kind with
  | temp | param => rfl
  | const c =>
    simp only [Value.fold, Value.rename, Value.Kind.rename]
    split
    · rfl
    · split
      · rfl
      · split <;> rfl

theorem Function.rename_zero? {ty : Ty} {zero : Value} (h : zero? ty = some zero) :
    zero.rename ρ = zero := by
  unfold zero? at h
  split at h
  · cases h
    rfl
  · split at h
    · cases h
      rfl
    · cases h

/-- Arguments are checked by their types. -/
theorem Function.argumentError?_rename (function : String) (index : Nat) (tys : List Ty)
    (args : List Value) : argumentError? function index tys (args.map (·.rename ρ)) =
      argumentError? function index tys args := by
  induction args generalizing index tys with
  | nil => cases tys <;> rfl
  | cons arg args ih =>
    cases tys with
    | nil => rfl
    | cons ty tys => simp [argumentError?, ih]

namespace Function

variable {f f' : Function} {b : Nat} {v w : Value}

@[simp] theorem ret_rename (f : Function) : (f.rename ρ).ret = f.ret := rfl

/-! ## Blocks -/

theorem rename_blocks (f : Function) (b : Nat) :
    (f.rename ρ).blocks[b]? = f.blocks[b]?.map (·.rename ρ) := List.getElem?_map

theorem open_rename : (f.rename ρ).Open b ↔ f.Open b := by
  unfold Open
  rw [rename_blocks]
  cases f.blocks[b]? <;> simp [Block.rename]

theorem rename_emit (f : Function) (b : Nat) (is : List Instr) :
    (f.emit b is).rename ρ = (f.rename ρ).emit b (is.map (·.rename ρ)) := by
  have hresults : results (is.map (·.rename ρ)) = results is := by
    simp [results, List.countP_map, Function.comp_def, Instr.rename]
  have hblocks := map_modify (g := Block.rename ρ) (f := (·.append is))
    (k := (·.append (is.map (·.rename ρ)))) (fun _ => by simp [Block.rename, Block.append])
    f.blocks b
  simp [rename, emit, hresults, hblocks]

theorem rename_finish (f : Function) (b : Nat) (t : Terminator) :
    (f.finish b t).rename ρ = (f.rename ρ).finish b (t.rename ρ) := by
  have hblocks := map_modify (g := Block.rename ρ) (f := (·.ended t)) (k := (·.ended (t.rename ρ)))
    (fun _ => rfl) f.blocks b
  simp [rename, finish, hblocks]

theorem rename_entry (f : Function) : (f.rename ρ).entry = f.entry.rename ρ := by
  unfold entry
  cases hb : f.blocks with
  | nil => simp [rename, hb, Block.rename, Block.empty]
  | cons => simp [rename, hb]

theorem rename_addBlock (f : Function) (label : String) : (f.rename ρ).addBlock label =
    ((f.addBlock label).1, (f.addBlock label).2.rename ρ) := by
  simp only [addBlock, rename_entry]
  simp [rename, Block.rename, Block.empty]

/-! ## Operations that succeed -/

theorem rename_define {ty : Ty} {op : Operation} (h : f.define b ty op = .ok (v, f')) :
    (f.rename ρ).define b ty (op.rename ρ) = .ok (v.rename ρ, f'.rename ρ) := by
  obtain ⟨ho, rfl, rfl⟩ := define_eq_ok.mp h
  exact define_eq_ok.mpr ⟨open_rename.mpr ho, rfl, rename_emit ..⟩

theorem rename_perform {op : Operation} (h : f.perform b op = .ok f') :
    (f.rename ρ).perform b (op.rename ρ) = .ok (f'.rename ρ) := by
  obtain ⟨ho, rfl⟩ := perform_eq_ok.mp h
  exact perform_eq_ok.mpr ⟨open_rename.mpr ho, rename_emit ..⟩

theorem rename_terminate {t : Terminator} (h : f.terminate b t = .ok f') :
    (f.rename ρ).terminate b (t.rename ρ) = .ok (f'.rename ρ) := by
  obtain ⟨ho, rfl⟩ := terminate_eq_ok.mp h
  exact terminate_eq_ok.mpr ⟨open_rename.mpr ho, rename_finish ..⟩

theorem rename_block {block : Block} (h : f.block b = .ok block) :
    (f.rename ρ).block b = .ok (block.rename ρ) := by
  rw [block_eq_ok] at h ⊢
  rw [rename_blocks, h]
  rfl

theorem rename_isClosed {closed : Bool} (h : (f.isClosed b).map (·, f) = .ok (closed, f')) :
    ((f.rename ρ).isClosed b).map (·, f.rename ρ) = .ok (closed, f'.rename ρ) := by
  unfold isClosed at h ⊢
  cases hb : f.block b with
  | error e => simp [hb, Except.map] at h
  | ok block =>
    simp only [hb, Except.map, Except.ok.injEq, Prod.mk.injEq] at h
    obtain ⟨rfl, rfl⟩ := h
    simp [rename_block hb, Except.map, Block.isClosed, Block.rename]

theorem rename_load (h : f.load b v = .ok (w, f')) :
    (f.rename ρ).load b (v.rename ρ) = .ok (w.rename ρ, f'.rename ρ) := by
  obtain ⟨ty, hty, h⟩ := load_ok h
  simpa [load, hty, Ty.target?, Operation.rename] using rename_define h

theorem rename_store {ptr : Value} (h : f.store b v ptr = .ok f') :
    (f.rename ρ).store b (v.rename ρ) (ptr.rename ρ) = .ok (f'.rename ρ) := by
  obtain ⟨hty, h⟩ := store_ok h
  simpa [store, hty, Ty.target?, Operation.rename] using rename_perform h

theorem rename_arith {op : Arith} {l r : Value} (h : f.arith b op l r = .ok (w, f')) :
    (f.rename ρ).arith b op (l.rename ρ) (r.rename ρ) = .ok (w.rename ρ, f'.rename ρ) := by
  obtain ⟨hty, hop, h⟩ := arith_ok h
  simpa [arith, ← hty, hop, Operation.rename] using rename_define h

theorem rename_compare {op : Relation} {l r : Value} (h : f.compare b op l r = .ok (w, f')) :
    (f.rename ρ).compare b op (l.rename ρ) (r.rename ρ) = .ok (w.rename ρ, f'.rename ρ) := by
  obtain ⟨hty, hne, h⟩ := compare_ok h
  simpa [compare, ← hty, hne, Operation.rename] using rename_define h

theorem rename_cast {ty : Ty} (h : f.cast b v ty = .ok (w, f')) :
    (f.rename ρ).cast b (v.rename ρ) ty = .ok (w.rename ρ, f'.rename ρ) := by
  unfold cast at h ⊢
  rw [Value.ty_rename, Value.rename_fold]
  split at h
  next hty =>
    cases h
    rw [if_pos hty]
  next hty =>
    rw [if_neg hty]
    cases hfold : v.fold ty with
    | some folded =>
      simp only [hfold] at h
      cases h
      rfl
    | none =>
      simp only [hfold, Option.map_none] at h ⊢
      cases hz : (if ty.isBool then zero? v.ty else none) with
      | some zero =>
        simp only [hz] at h ⊢
        rw [← rename_zero? (Option.ite_none_right_eq_some.mp hz).2]
        exact rename_compare h
      | none =>
        simp only [hz] at h ⊢
        cases hop : Conversion.between? v.ty ty with
        | none => simp [hop] at h
        | some op =>
          simp only [hop] at h ⊢
          exact rename_define h

theorem rename_call {sig : Signature} {args : List Value} {v : Option Value}
    (h : f.call b sig args = .ok (v, f')) :
    (f.rename ρ).call b sig (args.map (·.rename ρ)) = .ok (v.map (·.rename ρ), f'.rename ρ) := by
  unfold call at h ⊢
  rw [List.length_map, argumentError?_rename]
  split at h
  next => cases h
  next hlen =>
    rw [if_neg hlen]
    cases herr : argumentError? sig.name 0 sig.params args with
    | some e => simp [herr] at h
    | none =>
      simp only [herr] at h ⊢
      cases hv : sig.ret.isVoid with
      | true =>
        simp only [hv, if_true] at h ⊢
        cases hp : f.perform b (.call sig.name sig.ret args) with
        | error e => simp [hp] at h
        | ok f₁ =>
          simp only [hp] at h
          cases h
          have := rename_perform (ρ := ρ) hp
          simp only [Operation.rename] at this
          rw [this]
          rfl
      | false =>
        simp only [hv] at h ⊢
        cases hd : f.define b sig.ret (.call sig.name sig.ret args) with
        | error e => simp [hd] at h
        | ok x =>
          simp only [hd] at h
          cases h
          have := rename_define (ρ := ρ) hd
          simp only [Operation.rename] at this
          simp [this]

theorem rename_br {target : Nat} (h : f.br b target = .ok f') :
    (f.rename ρ).br b target = .ok (f'.rename ρ) := by
  unfold br at h ⊢
  cases ht : f.block target with
  | error e => simp [ht] at h
  | ok block =>
    rw [rename_block ht]
    simp only [ht] at h
    exact rename_terminate h

theorem rename_condBr {yes no : Nat} (h : f.condBr b v yes no = .ok f') :
    (f.rename ρ).condBr b (v.rename ρ) yes no = .ok (f'.rename ρ) := by
  unfold condBr at h ⊢
  split at h
  next hbool =>
    rw [Value.ty_rename, if_pos hbool]
    cases hy : f.block yes with
    | error e => simp [hy] at h
    | ok block =>
      cases hn : f.block no with
      | error e => simp [hy, hn] at h
      | ok block' =>
        rw [rename_block hy, rename_block hn]
        simp only [hy, hn] at h
        exact rename_terminate h
  next => cases h

theorem rename_retValue (h : f.retValue b v = .ok f') :
    (f.rename ρ).retValue b (v.rename ρ) = .ok (f'.rename ρ) := by
  unfold retValue at h ⊢
  split at h
  next hty =>
    rw [Value.ty_rename, ret_rename, if_pos hty]
    exact rename_terminate h
  next => cases h

theorem rename_retVoid (h : f.retVoid b = .ok f') :
    (f.rename ρ).retVoid b = .ok (f'.rename ρ) := by
  unfold retVoid at h ⊢
  split at h
  next hvoid =>
    rw [ret_rename, if_pos hvoid]
    exact rename_terminate h
  next => cases h

end Function
end Operations
end ProcLang.IR

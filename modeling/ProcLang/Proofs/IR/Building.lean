import ProcLang.IR.Function

/-!
# What building does to a function

An operation that succeeds finds its block open, and either adds instructions at its end or ends
it. All other blocks stay as they were.

## Main definitions

* `Function.defined` — what the instructions of a function define.
* `Function.Open` — the block of an index is there and has not ended.
* `Function.emit`, `Function.finish` — a function with instructions added to a block, or with a
  block ended.
-/
namespace ProcLang.IR

/-- A list with one element replaced, given what that element was. -/
theorem modify_eq_set {α : Type} {l : List α} {i : Nat} {a : α} (h : l[i]? = some a)
    (f : α → α) : l.modify i f = l.set i (f a) := by
  apply List.ext_getElem?
  intro j
  rw [List.getElem?_modify, List.getElem?_set]
  by_cases hij : i = j
  · subst hij
    obtain ⟨hi, rfl⟩ := List.getElem?_eq_some_iff.mp h
    simp [hi]
  · simp [hij]

theorem modify_append {α : Type} {l : List α} {i : Nat} (h : i < l.length) (r : List α)
    (f : α → α) : (l ++ r).modify i f = l.modify i f ++ r := by
  apply List.ext_getElem?
  intro j
  grind

theorem getElem?_concat {α : Type} {l : List α} {i : Nat} {a : α} (h : i = l.length) :
    (l ++ [a])[i]? = some a := by
  simp [h]

theorem modify_at {α : Type} {l : List α} {i : Nat} (h : i = l.length) (a : α) (r : List α)
    (f : α → α) : (l ++ a :: r).modify i f = l ++ f a :: r := by
  apply List.ext_getElem?
  intro j
  grind

namespace Block

/-- A block with instructions added at its end. -/
def append (b : Block) (is : List Instr) : Block := { b with instrs := b.instrs ++ is }

/-- A block that ends with `t`. -/
def ended (b : Block) (t : Terminator) : Block := { b with terminator := some t }

/-- A block that ends with `t` unless it has ended before. -/
def goesOn (b : Block) (t : Terminator) : Block := if b.isClosed then b else b.ended t

@[simp] theorem label_empty (label : String) : (Block.empty label).label = label := rfl

end Block

/-- How many values instructions define. -/
def results (is : List Instr) : Nat := is.countP (·.result.isSome)

@[simp] theorem results_nil : results [] = 0 := rfl

@[simp] theorem results_append (is is' : List Instr) :
    results (is ++ is') = results is + results is' := List.countP_append

/-- What instructions define. -/
def definedBy (is : List Instr) : List Value.Kind := is.filterMap (·.result.map (·.kind))

theorem definedBy_append (is is' : List Instr) :
    definedBy (is ++ is') = definedBy is ++ definedBy is' := List.filterMap_append

namespace Function

/-- What the instructions of a function define. -/
def defined (f : Function) : List Value.Kind := definedBy (f.blocks.flatMap (·.instrs))

/-- The block of index `b` is there and has not ended. -/
def Open (f : Function) (b : Nat) : Prop := ∃ block, f.blocks[b]? = some block ∧
  block.terminator = none

/-- A function with instructions added at the end of a block. -/
def emit (f : Function) (b : Nat) (is : List Instr) : Function :=
  { f with blocks := f.blocks.modify b (·.append is), temps := f.temps + results is }

/-- A function with a block that ends with `t`. -/
def finish (f : Function) (b : Nat) (t : Terminator) : Function :=
  { f with blocks := f.blocks.modify b (·.ended t) }

@[simp] theorem length_blocks_emit (f : Function) (b : Nat) (is : List Instr) :
    (f.emit b is).blocks.length = f.blocks.length := List.length_modify ..

@[simp] theorem emit_nil (f : Function) (b : Nat) : f.emit b [] = f := by
  have h : (fun block : Block => block.append []) = id := by
    funext block
    simp [Block.append]
  simp [emit, h]

@[simp] theorem emit_emit (f : Function) (b : Nat) (is is' : List Instr) :
    (f.emit b is).emit b is' = f.emit b (is ++ is') := by
  simp only [emit, List.modify_modify_eq, results_append, Nat.add_assoc]
  congr 2
  funext block
  simp [Block.append]

theorem open_emit {f : Function} {b c : Nat} {is : List Instr} :
    (f.emit b is).Open c ↔ f.Open c := by
  simp only [Open, emit, List.getElem?_modify]
  by_cases h : b = c
  · subst h
    cases f.blocks[b]? <;> simp [Block.append]
  · simp [h]

/-! ## Operations that succeed -/

theorem block_eq_ok {f : Function} {b : Nat} {block : Block} :
    f.block b = .ok block ↔ f.blocks[b]? = some block := by
  unfold Function.block
  split <;> simp_all

theorem not_open_of_error {f : Function} {b : Nat} {e : Error} (h : f.block b = .error e) :
    ¬ f.Open b := by
  rintro ⟨block, hb, -⟩
  rw [block_eq_ok.mpr hb] at h
  cases h

theorem open_iff {f : Function} {b : Nat} {block : Block} (h : f.block b = .ok block) :
    f.Open b ↔ block.isClosed = false := by
  simp [Open, block_eq_ok.mp h, Block.isClosed]

theorem define_eq_ok {f f' : Function} {b : Nat} {ty : Ty} {op : Operation} {v : Value} :
    f.define b ty op = .ok (v, f') ↔
      f.Open b ∧ v = ⟨.temp f.temps, ty⟩ ∧ f' = f.emit b [⟨some v, op⟩] := by
  unfold define
  cases hb : f.block b with
  | error e => simp [not_open_of_error hb]
  | ok block =>
    have hset := modify_eq_set (block_eq_ok.mp hb)
    rw [open_iff hb]
    cases hc : block.isClosed with
    | true => simp [hc]
    | false =>
      simp only [hc, Bool.false_eq_true, if_false, Except.ok.injEq, Prod.mk.injEq, true_and]
      constructor
      · rintro ⟨rfl, rfl⟩
        simp [emit, setBlock, hset, Block.append, results]
      · rintro ⟨rfl, rfl⟩
        simp [emit, setBlock, hset, Block.append, results]

theorem perform_eq_ok {f f' : Function} {b : Nat} {op : Operation} :
    f.perform b op = .ok f' ↔ f.Open b ∧ f' = f.emit b [⟨none, op⟩] := by
  unfold perform
  cases hb : f.block b with
  | error e => simp [not_open_of_error hb]
  | ok block =>
    have hset := modify_eq_set (block_eq_ok.mp hb)
    rw [open_iff hb]
    cases hc : block.isClosed with
    | true => simp [Block.push, hc]
    | false => simp [Block.push, hc, emit, setBlock, hset, Block.append, results, eq_comm]

theorem terminate_eq_ok {f f' : Function} {b : Nat} {t : Terminator} :
    f.terminate b t = .ok f' ↔ f.Open b ∧ f' = f.finish b t := by
  unfold terminate
  cases hb : f.block b with
  | error e => simp [not_open_of_error hb]
  | ok block =>
    have hset := modify_eq_set (block_eq_ok.mp hb)
    rw [open_iff hb]
    cases hc : block.isClosed with
    | true => simp [Block.close, hc]
    | false => simp [Block.close, hc, finish, setBlock, hset, Block.ended, eq_comm]

theorem arith_ok {f : Function} {b : Nat} {op : Arith} {l r : Value} {x : Value × Function}
    (h : f.arith b op l r = .ok x) :
    l.ty = r.ty ∧ op.accepts l.ty = true ∧ f.define b l.ty (.arith op l r) = .ok x := by
  unfold arith at h
  split at h
  · cases h
  next hty =>
    split at h
    next hop => exact ⟨Decidable.not_not.mp hty, hop, h⟩
    next => cases h

theorem compare_ok {f : Function} {b : Nat} {op : Relation} {l r : Value} {x : Value × Function}
    (h : f.compare b op l r = .ok x) :
    l.ty = r.ty ∧ (l.ty.isVoid || l.ty.isPtr) = false ∧
      f.define b .i1 (.compare op l r) = .ok x := by
  unfold compare at h
  split at h
  · cases h
  next hty =>
    split at h
    next => cases h
    next hnot => exact ⟨Decidable.not_not.mp hty, Bool.eq_false_iff.mpr hnot, h⟩

theorem load_ok {f : Function} {b : Nat} {ptr : Value} {x : Value × Function}
    (h : f.load b ptr = .ok x) :
    ∃ ty, ptr.ty = .ptr ty ∧ f.define b ty (.load ptr) = .ok x := by
  unfold load at h
  cases ptr with
  | mk kind ty =>
    cases ty with
    | ptr ty => exact ⟨ty, rfl, h⟩
    | _ => cases h

theorem store_ok {f f' : Function} {b : Nat} {value ptr : Value}
    (h : f.store b value ptr = .ok f') :
    ptr.ty = .ptr value.ty ∧ f.perform b (.store value ptr) = .ok f' := by
  unfold store at h
  cases ptr with
  | mk kind ty =>
    cases ty with
    | ptr ty =>
      simp only [Ty.target?] at h
      split at h
      next hty => exact ⟨congrArg Ty.ptr hty, h⟩
      next => cases h
    | _ => cases h

theorem call_ok {f f' : Function} {b : Nat} {sig : Signature} {args : List Value}
    {v : Option Value} (h : f.call b sig args = .ok (v, f')) :
    (sig.ret.isVoid = true ∧ v = none ∧ f.perform b (.call sig.name sig.ret args) = .ok f') ∨
      (sig.ret.isVoid = false ∧ ∃ w, v = some w ∧
        f.define b sig.ret (.call sig.name sig.ret args) = .ok (w, f')) := by
  unfold call at h
  split at h
  · cases h
  split at h
  · cases h
  cases hv : sig.ret.isVoid with
  | true =>
    simp only [hv, if_true] at h
    cases hp : f.perform b (.call sig.name sig.ret args) with
    | ok g => simp_all
    | error e => simp [hp] at h
  | false =>
    simp only [hv, Bool.false_eq_true, if_false] at h
    cases hp : f.define b sig.ret (.call sig.name sig.ret args) with
    | ok g =>
      simp only [hp, Except.ok.injEq, Prod.mk.injEq] at h
      exact .inr ⟨rfl, g.1, h.1.symm, by rw [← h.2]⟩
    | error e => simp [hp] at h

theorem cast_ok {f f' : Function} {b : Nat} {v w : Value} {ty : Ty}
    (h : f.cast b v ty = .ok (w, f')) :
    (v.ty = ty ∧ w = v ∧ f' = f) ∨ (v.ty ≠ ty ∧ v.fold ty = some w ∧ f' = f) ∨
      (v.ty ≠ ty ∧ v.fold ty = none ∧
        ((∃ zero, ty = .i1 ∧ zero? v.ty = some zero ∧ f.compare b .ne v zero = .ok (w, f')) ∨
          ∃ op, Conversion.between? v.ty ty = some op ∧
            f.define b ty (.cast op v ty) = .ok (w, f'))) := by
  unfold cast at h
  by_cases hty : v.ty = ty
  · simp only [hty, if_true, Except.ok.injEq, Prod.mk.injEq] at h
    exact .inl ⟨hty, h.1.symm, h.2.symm⟩
  simp only [hty, if_false] at h
  cases hfold : v.fold ty with
  | some folded =>
    simp only [hfold, Except.ok.injEq, Prod.mk.injEq] at h
    exact .inr (.inl ⟨hty, by rw [h.1], h.2.symm⟩)
  | none =>
    refine .inr (.inr ⟨hty, rfl, ?_⟩)
    simp only [hfold] at h
    cases hz : (if ty.isBool then zero? v.ty else none) with
    | some zero =>
      simp only [hz] at h
      obtain ⟨hb, hz⟩ := Option.ite_none_right_eq_some.mp hz
      obtain rfl : ty = .i1 := by cases ty <;> simp_all [Ty.isBool]
      exact .inl ⟨zero, rfl, hz, h⟩
    | none =>
      simp only [hz] at h
      cases hop : Conversion.between? v.ty ty with
      | none => simp [hop] at h
      | some op =>
        simp only [hop] at h
        exact .inr ⟨op, rfl, h⟩

end Function
end ProcLang.IR

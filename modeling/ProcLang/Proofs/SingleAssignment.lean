import Mathlib.Data.List.Pairwise
import ProcLang.Proofs.IR.Placement
import ProcLang.Proofs.Lowering.Typing

/-!
# Single assignment

Every temporary of a lowered function is defined by one instruction, and wherever it is used it has
been defined before, with the same type: by an earlier instruction of the block, or in a block that
every way to this block comes through.

## Main definitions

* `Function.Path` — a way through the blocks of a function, from its entry on.
* `Function.Known`, `Value.Usable` — the values that are known at a place, and the operands that may
  be used there.
* `Function.SingleAssignment` — what holds of the instructions of a lowered function.

## Main statements

* `Program.singleAssignment_of_lower`.
-/
namespace ProcLang
namespace IR

/-- The instructions reserve the storage that `ptr` points to and fill it at once. -/
def Reserves (is : List Instr) (ptr : Value) : Prop :=
  ∃ before value after,
    is = before ++ ⟨some ptr, .alloca value.ty⟩ :: ⟨none, .store value ptr⟩ :: after

/-- An operand that may be used where the temporaries of `known` are known: one of these with its
type, a parameter with its type, or a constant of its type. -/
def Value.Usable (params : List (String × Ty)) (known : Value → Prop) (v : Value) : Prop :=
  match v.kind with
  | .temp _ => known v
  | .param name => (name, v.ty) ∈ params
  | .const c => (Datum.ofLiteral c).Canonical v.ty

namespace Function

/-- `f.Path bs b`: branches lead from the first block of `f` through the blocks `bs` to `b`. -/
inductive Path (f : Function) : List Block → Block → Prop where
  | entry {b : Block} {bs : List Block} (h : f.blocks = b :: bs) : Path f [] b
  | step {bs : List Block} {b b' : Block} (h : Path f bs b) (hb' : b' ∈ f.blocks)
      (hl : b'.label ∈ b.targets) : Path f (bs ++ [b]) b'

/-- A value that is known in block `b` behind the instructions `before`: they define it, or it is
defined in a block that is on every path to `b`. -/
def Known (f : Function) (b : Block) (before : List Instr) (v : Value) : Prop :=
  Defines before v ∨ ∃ d ∈ f.blocks, Defines d.instrs v ∧ ∀ bs, f.Path bs b → d ∈ bs

/-- Every temporary is defined once and used only where it is known. -/
structure SingleAssignment (f : Function) : Prop where
  /-- The temporaries are numbered without gaps, and each is defined by one instruction. -/
  defined : f.defined.Perm ((List.range f.temps).map .temp)
  instrs : ∀ b ∈ f.blocks, ∀ before i after, b.instrs = before ++ i :: after →
    ∀ v ∈ i.op.operands, v.Usable f.params (f.Known b before)
  terminators : ∀ b ∈ f.blocks, ∀ t, b.terminator = some t →
    ∀ v ∈ t.operands, v.Usable f.params (f.Known b b.instrs)
  /-- What is loaded from or stored to has been reserved and filled at once. -/
  storage : ∀ b ∈ f.blocks, ∀ i ∈ b.instrs, ∀ ptr, (i.op = .load ptr ∨ ∃ v, i.op = .store v ptr) →
    ∃ d ∈ f.blocks, Reserves d.instrs ptr

end Function

/-! ## Definitions -/

/-- The instructions of a flow, in the block that it starts in and in its new blocks. -/
def Flow.code (g : Flow) (n : Nat) (exit : Option Terminator) : List Instr :=
  g.instrs ++ (g.blocks n exit).flatMap (·.instrs)

theorem Flow.code_when (cond : Value) (yes rest : Flow) (n : Nat) (exit : Option Terminator) :
    (Flow.when cond yes rest).code n exit =
      yes.code (n + 1) (some (.br (nextLabel n yes))) ++ rest.code (n + 1 + yes.size + 1) exit := by
  simp [code, instrs, blocks, block]

theorem Flow.code_either (cond : Value) (yes : Flow) (base : String) (no rest : Flow) (n : Nat)
    (exit : Option Terminator) :
    ((Flow.either cond yes base no rest).code n exit).Perm
      (yes.code (n + 1) (some (.br (nextLabel n yes))) ++
        (no.code (n + 1 + yes.size + 2) (some (.br (nextLabel n yes))) ++
          rest.code (n + 1 + yes.size + 2 + no.size) exit)) := by
  simp only [code, instrs, blocks, block, List.nil_append, List.flatMap_append, List.flatMap_cons,
    List.cons_append, List.append_assoc]
  refine .append_left _ (.append_left _ ?_)
  exact (List.perm_append_comm_assoc ..).trans (.append_left _ (List.perm_append_comm_assoc ..))

/-- A typed flow defines its temporaries in order, each one once. -/
theorem Flow.Typed.perm_definedBy {E : Env} {k k' : Nat} {Δ : Ctx} {g : Flow}
    (h : g.Typed E k Δ k') (n : Nat) (exit : Option Terminator) :
    (definedBy (g.code n exit)).Perm ((List.range' k g.defs).map .temp) := by
  induction h generalizing n exit with
  | fall | retNothing | ret => exact .nil
  | define _ _ hrest ih =>
    rw [Flow.defs, Nat.add_comm]
    exact (ih n exit).cons _
  | perform _ _ hrest ih =>
    rw [Flow.defs, Nat.add_comm]
    exact ih n exit
  | bind _ _ hrest ih => exact (ih n exit).cons _
  | when _ _ hyes hrest ihy ih =>
    rw [Flow.code_when, definedBy_append, Flow.defs, ← List.range'_append_1, ← hyes.count,
      List.map_append]
    exact (ihy ..).append (ih ..)
  | either _ _ hyes hno hrest ihy ihn ih =>
    refine ((Flow.code_either ..).filterMap _).trans ?_
    change (definedBy _).Perm _
    rw [definedBy_append, definedBy_append, Flow.defs, ← List.range'_append_1,
      ← List.range'_append_1, ← Nat.add_assoc, ← hyes.count, ← hno.count, List.map_append,
      List.map_append, List.append_assoc]
    exact (ihy ..).append ((ihn ..).append (ih ..))

/-! ## Uses -/

/-- Nothing is known but what `Δ` knows or the instructions `before` have defined. -/
structure Ctx.Since (Δ' Δ : Ctx) (before : List Instr) : Prop where
  values : ∀ v ∈ Δ'.values, v ∈ Δ.values ∨ Defines before v
  slots : ∀ t ∈ Δ'.slots, t ∈ Δ.slots ∨ Reserves before ⟨.temp t.1, .ptr t.2⟩

namespace Ctx.Since

variable {Δ Δ' : Ctx} {before : List Instr}

theorem refl (Δ : Ctx) : Δ.Since Δ [] := ⟨fun _ hv => .inl hv, fun _ ht => .inl ht⟩

theorem cons (i : Instr) (h : Δ'.Since Δ before) : Δ'.Since Δ (i :: before) := by
  refine ⟨fun v hv => (h.values v hv).imp_right ?_, fun t ht => (h.slots t ht).imp_right ?_⟩
  · rintro ⟨j, hj, hres⟩
    exact ⟨j, List.mem_cons_of_mem _ hj, hres⟩
  · rintro ⟨bs, value, as, rfl⟩
    exact ⟨i :: bs, value, as, rfl⟩

theorem define {k : Nat} {ty : Ty} (op : Operation) (h : Δ'.Since (Δ.define k ty) before) :
    Δ'.Since Δ (⟨some ⟨.temp k, ty⟩, op⟩ :: before) := by
  refine ⟨fun v hv => ?_, (h.cons _).slots⟩
  rcases (h.cons _).values v hv with hv | hv
  · rcases mem_values_define.mp hv with rfl | hv
    · exact .inr ⟨_, List.mem_cons_self, rfl⟩
    · exact .inl hv
  · exact .inr hv

theorem bind {k : Nat} {value : Value} (h : Δ'.Since (Δ.bind k value.ty) before) :
    Δ'.Since Δ (Flow.reserve k value ++ before) := by
  have h' := (h.cons ⟨none, .store value (Flow.slot k value)⟩).cons
    ⟨some (Flow.slot k value), .alloca value.ty⟩
  refine ⟨fun v hv => ?_, fun t ht => ?_⟩
  · rcases h'.values v hv with hv | hv
    · rcases mem_values_bind.mp hv with rfl | hv
      · exact .inr ⟨_, List.mem_cons_self, rfl⟩
      · exact .inl hv
    · exact .inr hv
  · rcases h'.slots t ht with ht | ht
    · rcases List.mem_cons.mp ht with rfl | ht
      · exact .inr ⟨[], value, before, rfl⟩
      · exact .inl ht
    · exact .inr ht

end Ctx.Since

/-- What an instruction between others can be: a typed operation, or one of the two that reserve
storage and fill it. -/
inductive Instr.Placed (E : Env) (Δ : Ctx) (before after : List Instr) : Instr → Prop where
  | operation {result : Option Value} {op : Operation} {ty : Ty} (h : op.Typed E Δ ty) :
      Placed E Δ before after ⟨result, op⟩
  | alloca (k : Nat) (value : Value) :
      Placed E Δ before after ⟨some (Flow.slot k value), .alloca value.ty⟩
  | store {k : Nat} {value : Value} {rest : List Instr} (hv : Operand E Δ value)
      (h : before = rest ++ [⟨some (Flow.slot k value), .alloca value.ty⟩]) :
      Placed E Δ before after ⟨none, .store value (Flow.slot k value)⟩

theorem Instr.Placed.cons {E : Env} {Δ : Ctx} {before after : List Instr} {i : Instr}
    (h : i.Placed E Δ before after) (j : Instr) : i.Placed E Δ (j :: before) after := by
  cases h with
  | operation h => exact .operation h
  | alloca => exact .alloca ..
  | store hv h =>
    subst h
    exact .store hv (List.cons_append ..).symm

/-- Every instruction of a typed flow is typed where it stands. -/
theorem Flow.Typed.placed {E : Env} {k k' : Nat} {Δ : Ctx} {g : Flow} (h : g.Typed E k Δ k')
    {before after : List Instr} {i : Instr} (hs : g.instrs = before ++ i :: after) :
    ∃ Δ', Δ'.Since Δ before ∧ i.Placed E Δ' before after := by
  induction h generalizing before with
  | fall | retNothing | ret | when | either => simp [Flow.instrs] at hs
  | define hop _ _ ih =>
    cases before with
    | nil =>
      obtain ⟨rfl, rfl⟩ := List.cons_eq_cons.mp hs
      exact ⟨_, .refl _, .operation hop⟩
    | cons j before =>
      obtain ⟨rfl, htail⟩ := List.cons_eq_cons.mp hs
      obtain ⟨Δ', hsince, hplaced⟩ := ih htail
      exact ⟨Δ', hsince.define _, hplaced.cons _⟩
  | perform hop _ _ ih =>
    cases before with
    | nil =>
      obtain ⟨rfl, rfl⟩ := List.cons_eq_cons.mp hs
      exact ⟨_, .refl _, .operation hop⟩
    | cons j before =>
      obtain ⟨rfl, htail⟩ := List.cons_eq_cons.mp hs
      obtain ⟨Δ', hsince, hplaced⟩ := ih htail
      exact ⟨Δ', hsince.cons _, hplaced.cons _⟩
  | bind hv _ _ ih =>
    cases before with
    | nil =>
      obtain ⟨rfl, rfl⟩ := List.cons_eq_cons.mp hs
      exact ⟨_, .refl _, .alloca ..⟩
    | cons j before =>
      obtain ⟨rfl, htail⟩ := List.cons_eq_cons.mp hs
      cases before with
      | nil =>
        obtain ⟨rfl, rfl⟩ := List.cons_eq_cons.mp htail
        exact ⟨_, (Ctx.Since.refl _).cons _, .store hv (List.nil_append _).symm⟩
      | cons j' before =>
        obtain ⟨rfl, htail'⟩ := List.cons_eq_cons.mp htail
        obtain ⟨Δ', hsince, hplaced⟩ := ih htail'
        exact ⟨Δ', hsince.bind, (hplaced.cons _).cons _⟩

section Usable

variable {E : Env} {Δ Δ' : Ctx} {before after : List Instr} {v : Value}

theorem Value.Usable.mono {params : List (String × Ty)} {known known' : Value → Prop}
    (h : v.Usable params known) (hsub : ∀ v, known v → known' v) : v.Usable params known' := by
  unfold Value.Usable at h ⊢
  split <;> simp_all

theorem Operand.usable (h : Operand E Δ v) : v.Usable E.params (· ∈ Δ.values) := by
  cases h with
  | temp h => exact List.mem_append_left _ (List.mem_map_of_mem h)
  | param h => exact h
  | const h => exact h

/-- The operands of a typed operation: a pointer to storage in use, or such as may be used. -/
theorem Operation.Typed.usable {op : Operation} {ty : Ty} (h : op.Typed E Δ ty)
    (hv : v ∈ op.operands) : v.Usable E.params (· ∈ Δ.values) := by
  cases h with
  | load hk =>
    obtain rfl := List.mem_singleton.mp hv
    exact List.mem_append_right _ (List.mem_map_of_mem hk)
  | arith hl hr | compare hl hr =>
    simp only [operands, List.mem_cons, List.not_mem_nil, or_false] at hv
    rcases hv with rfl | rfl
    · exact hl.usable
    · exact hr.usable
  | cast hw =>
    obtain rfl := List.mem_singleton.mp hv
    exact hw.usable
  | call _ hargs => exact (hargs v hv).usable

theorem Instr.Placed.usable {i : Instr} (h : i.Placed E Δ before after) (hv : v ∈ i.op.operands) :
    v.Usable E.params fun v => v ∈ Δ.values ∨ Defines before v := by
  cases h with
  | operation h => exact (h.usable hv).mono fun _ => .inl
  | alloca => cases hv
  | store hw h =>
    simp only [Operation.operands, List.mem_cons, List.not_mem_nil, or_false] at hv
    rcases hv with rfl | rfl
    · exact hw.usable.mono fun _ => .inl
    · subst h
      exact .inr ⟨_, List.mem_append_right _ List.mem_cons_self, rfl⟩

/-- Storage that an instruction loads from or stores to: it is in use already, or it is being
filled. -/
theorem Instr.Placed.reserved {i : Instr} {ptr : Value} (h : i.Placed E Δ before after)
    (hi : i.op = .load ptr ∨ ∃ v, i.op = .store v ptr) :
    (∃ t ∈ Δ.slots, ptr = ⟨.temp t.1, .ptr t.2⟩) ∨ Reserves (before ++ i :: after) ptr := by
  cases h with
  | operation h =>
    obtain rfl | ⟨v, rfl⟩ := hi
    · cases h with
      | load hk => exact .inl ⟨_, hk, rfl⟩
    · cases h
  | alloca => simp at hi
  | store hv h =>
    obtain hi | ⟨v, hi⟩ := hi
    · cases hi
    · cases hi
      subst h
      exact .inr ⟨_, _, after, List.append_assoc ..⟩

theorem Flow.Typed.usable {k k' : Nat} {g : Flow} {i : Instr} (h : g.Typed E k Δ k')
    (hs : g.instrs = before ++ i :: after) (hv : v ∈ i.op.operands) :
    v.Usable E.params fun v => v ∈ Δ.values ∨ Defines before v := by
  obtain ⟨Δ', hsince, hplaced⟩ := h.placed hs
  refine (hplaced.usable hv).mono fun v hv => ?_
  exact hv.elim (hsince.values v) .inr

/-- The operand of the terminator that a typed flow ends its block with. -/
theorem Flow.Typed.operand_terminator {k k' n : Nat} {g : Flow} {e t : Terminator}
    (h : g.Typed E k Δ k') (he : e.operands = []) (ht : g.terminator n (some e) = some t)
    (hv : v ∈ t.operands) : ∃ Δ', Δ'.Since Δ g.instrs ∧ Operand E Δ' v := by
  induction h with
  | fall =>
    cases ht
    rw [he] at hv
    cases hv
  | retNothing =>
    cases ht
    cases hv
  | ret hw | when hw | either hw =>
    cases ht
    obtain rfl := List.mem_singleton.mp hv
    exact ⟨_, .refl _, hw⟩
  | define _ _ _ ih =>
    obtain ⟨Δ', hsince, hw⟩ := ih ht
    exact ⟨Δ', hsince.define _, hw⟩
  | perform _ _ _ ih =>
    obtain ⟨Δ', hsince, hw⟩ := ih ht
    exact ⟨Δ', hsince.cons _, hw⟩
  | bind _ _ _ ih =>
    obtain ⟨Δ', hsince, hw⟩ := ih ht
    exact ⟨Δ', hsince.bind, hw⟩

/-- Storage that the instructions of a flow load from or store to. -/
theorem Flow.Typed.reserved {k k' : Nat} {g : Flow} {i : Instr} {ptr : Value}
    (h : g.Typed E k Δ k') (hmem : i ∈ g.instrs)
    (hi : i.op = .load ptr ∨ ∃ v, i.op = .store v ptr) :
    (∃ t ∈ Δ.slots, ptr = ⟨.temp t.1, .ptr t.2⟩) ∨ Reserves g.instrs ptr := by
  obtain ⟨before, after, hs⟩ := List.append_of_mem hmem
  obtain ⟨Δ', hsince, hplaced⟩ := h.placed hs
  rw [hs]
  rcases hplaced.reserved hi with ⟨t, ht, rfl⟩ | hres
  · rcases hsince.slots t ht with ht | ⟨bs, value, as, rfl⟩
    · exact .inl ⟨t, ht, rfl⟩
    · exact .inr ⟨bs, value, as ++ i :: after, by simp⟩
  · exact .inr hres

end Usable

/-! ## Places -/

namespace Function

variable {f : Function} {E : Env} {Δ Δ' : Ctx}

/-- All that is known has been defined somewhere in the function. -/
structure Justified (f : Function) (Δ : Ctx) : Prop where
  values : ∀ v ∈ Δ.values, ∃ d ∈ f.blocks, Defines d.instrs v
  slots : ∀ t ∈ Δ.slots, ∃ d ∈ f.blocks, Reserves d.instrs ⟨.temp t.1, .ptr t.2⟩

theorem Justified.since {d : Block} {l is r : List Instr} (h : f.Justified Δ) (hd : d ∈ f.blocks)
    (hs : d.instrs = l ++ (is ++ r)) (hΔ : Δ'.Since Δ is) : f.Justified Δ' := by
  constructor
  · intro v hv
    rcases hΔ.values v hv with hv | ⟨i, hi, hres⟩
    · exact h.values v hv
    · exact ⟨d, hd, i, by simp [hs, hi], hres⟩
  · intro t ht
    rcases hΔ.slots t ht with ht | ⟨bs, value, as, rfl⟩
    · exact h.slots t ht
    · exact ⟨d, hd, l ++ bs, value, as ++ r, by simp [hs]⟩

/-- Every new block of a flow starts a flow. -/
theorem Has.starts_of_mem {g : Flow} {n : Nat} {e : Terminator} {d b : Block} {l : List Instr}
    (h : f.Has E Δ g n e) (hj : f.Justified Δ) (hd : d ∈ f.blocks) (hs : d.instrs = l ++ g.instrs)
    (hb : b ∈ g.blocks n (some e)) : ∃ Δ', f.Starts E Δ' b ∧ f.Justified Δ' := by
  induction g generalizing Δ n e d l with
  | fall | ret => cases hb
  | emit i rest ih =>
    have hs' : d.instrs = l ++ ([i] ++ rest.instrs) := hs
    obtain ⟨k, ty, hres, -, -, -, hrest⟩ | ⟨ty, -, -, -, hrest⟩ := h.emit
    · have hsince : (Δ.define k ty).Since Δ [i] := by
        obtain ⟨_, op⟩ := i
        obtain rfl := hres
        exact (Ctx.Since.refl _).define op
      exact ih hrest (hj.since hd hs' hsince) hd (hs'.trans (List.append_assoc ..).symm) hb
    · exact ih hrest hj hd (hs'.trans (List.append_assoc ..).symm) hb
  | bind k value rest ih =>
    obtain ⟨-, -, -, hrest⟩ := h.bind
    have hj' := hj.since hd hs (Ctx.Since.refl _).bind
    exact ih hrest hj' hd (hs.trans (List.append_assoc ..).symm) hb
  | when cond yes rest ihy ih =>
    have hn : n + 1 + yes.size + 1 = n + 2 + yes.size := by omega
    obtain ⟨-, -, hyes, hrest⟩ := h.when
    simp only [Flow.blocks, List.mem_append, List.mem_cons, hn] at hb
    rcases hb with (rfl | hb) | rfl | hb
    · exact ⟨Δ, hyes.starts, hj⟩
    · exact ihy hyes.2 hj (List.mem_of_getElem? hyes.1) (List.nil_append _).symm hb
    · exact ⟨Δ, hrest.starts, hj⟩
    · exact ih hrest.2 hj (List.mem_of_getElem? hrest.1) (List.nil_append _).symm hb
  | either cond yes base no rest ihy ihn ih =>
    have hn₁ : n + 1 + yes.size + 1 = n + 2 + yes.size := by omega
    have hn₂ : n + 1 + yes.size + 2 = n + 3 + yes.size := by omega
    obtain ⟨-, -, hyes, hno, hrest⟩ := h.either
    simp only [Flow.blocks, List.mem_append, List.mem_cons, hn₁, hn₂] at hb
    rcases hb with ((rfl | hb) | rfl | rfl | hb) | hb
    · exact ⟨Δ, hyes.starts, hj⟩
    · exact ihy hyes.2 hj (List.mem_of_getElem? hyes.1) (List.nil_append _).symm hb
    · exact ⟨Δ, hrest.starts, hj⟩
    · exact ⟨Δ, hno.starts, hj⟩
    · exact ihn hno.2 hj (List.mem_of_getElem? hno.1) (List.nil_append _).symm hb
    · exact ih hrest.2 hj (List.mem_of_getElem? hrest.1) (List.nil_append _).symm hb

theorem Starts.mem {b : Block} (h : f.Starts E Δ b) : b ∈ f.blocks := by
  obtain ⟨base, i, g, n, e, rfl, hstart⟩ := h
  exact List.mem_of_getElem? hstart.1

/-- What is known at the end of a path has been defined on it. -/
theorem Path.starts {g : Flow} {bs : List Block} {b : Block}
    (hf : f.StartsAt E .empty "entry" 0 g 1 (ending E.ret))
    (hlabels : (f.blocks.map (·.label)).Nodup)
    (h : f.Path bs b) :
    (∃ Δ, f.Starts E Δ b ∧ ∀ v ∈ Δ.values, ∃ d ∈ bs, Defines d.instrs v) ∧ bs ⊆ f.blocks := by
  induction h with
  | entry hb =>
    have hentry := hf.1
    rw [hb] at hentry
    cases hentry
    exact ⟨⟨.empty, hf.starts, fun v hv => nomatch hv⟩, List.nil_subset _⟩
  | step h hb' hl ih =>
    obtain ⟨⟨Δ, ⟨base, i, g, n, e, rfl, hstart⟩, hval⟩, hbs⟩ := ih
    have hmem := List.mem_of_getElem? hstart.1
    obtain ⟨Δ', b'', hlabel, hstart', hval'⟩ := hstart.2.branch hl
    obtain rfl := List.inj_on_of_nodup_map hlabels hstart'.mem hb' hlabel
    refine ⟨⟨Δ', hstart', fun v hv => ?_⟩, List.append_subset.mpr ⟨hbs, by simpa using hmem⟩⟩
    rcases hval' v hv with hv | hv
    · obtain ⟨d, hd, hdef⟩ := hval v hv
      exact ⟨d, List.mem_append_left _ hd, hdef⟩
    · exact ⟨_, List.mem_append_right _ List.mem_cons_self, hv⟩

theorem nodup_defined {n : Nat} (h : f.defined.Perm ((List.range n).map .temp)) :
    f.defined.Nodup := by
  refine h.nodup_iff.mpr (List.nodup_range.map ?_)
  exact fun _ _ h => Value.Kind.temp.inj h

theorem mem_definedBy {is : List Instr} {v : Value} (h : Defines is v) : v.kind ∈ definedBy is := by
  obtain ⟨i, hi, hres⟩ := h
  exact List.mem_filterMap.mpr ⟨i, hi, by rw [hres]; rfl⟩

/-- A value is defined in one block only. -/
theorem block_unique {v : Value} {d d' : Block} (h : f.defined.Nodup) (hd : d ∈ f.blocks)
    (hd' : d' ∈ f.blocks) (hv : Defines d.instrs v) (hv' : Defines d'.instrs v) : d = d' := by
  have hblocks : (f.blocks.flatMap fun b => definedBy b.instrs).Nodup := by
    simpa [defined, definedBy, List.filterMap_flatMap] using h
  by_contra hne
  have : Std.Symm (Function.onFun List.Disjoint fun b : Block => definedBy b.instrs) :=
    ⟨fun _ _ => List.disjoint_symm⟩
  exact (List.nodup_flatMap.mp hblocks).2.forall hd hd' hne (mem_definedBy hv) (mem_definedBy hv')

/-- What may be used in a block wherever it is a start of a flow may be used there. -/
theorem usable_of_starts {g : Flow} {b : Block} {before : List Instr} {v : Value}
    (hf : f.StartsAt E .empty "entry" 0 g 1 (ending E.ret))
    (hlabels : (f.blocks.map (·.label)).Nodup)
    (hdefined : f.defined.Nodup) (hb : ∃ Δ, f.Starts E Δ b ∧ f.Justified Δ)
    (h : ∀ Δ, f.Starts E Δ b → v.Usable E.params fun v => v ∈ Δ.values ∨ Defines before v) :
    v.Usable E.params (f.Known b before) := by
  obtain ⟨Δ, hstart, hj⟩ := hb
  have hv := h Δ hstart
  obtain ⟨kind, ty⟩ := v
  cases kind with
  | param => exact hv
  | const => exact hv
  | temp k =>
    by_cases hbefore : Defines before ⟨.temp k, ty⟩
    · exact .inl hbefore
    · obtain ⟨d, hd, hdef⟩ := hj.values _ (hv.resolve_right hbefore)
      refine .inr ⟨d, hd, hdef, fun bs hbs => ?_⟩
      -- the flow found along the path need not be `Δ`'s, but the value is known in both
      obtain ⟨⟨Δ', hstart', hval⟩, hsub⟩ := hbs.starts hf hlabels
      obtain ⟨d', hd', hdef'⟩ := hval _ ((h Δ' hstart').resolve_right hbefore)
      obtain rfl := block_unique hdefined hd (hsub hd') hdef hdef'
      exact hd'

theorem Leads.operands {e : Terminator} (h : f.Leads E Δ e) : e.operands = [] := by
  cases h with
  | ending =>
    unfold Function.ending
    split <;> rfl
  | next => rfl

/-- Every block of the function of a typed flow starts a flow. -/
theorem starts_ofFlow {g : Flow} {k : Nat} (hg : g.Typed E 0 .empty k) (name : String) {b : Block}
    (hb : b ∈ (ofFlow name E.ret E.params g).blocks) :
    ∃ Δ, (ofFlow name E.ret E.params g).Starts E Δ b ∧
      (ofFlow name E.ret E.params g).Justified Δ := by
  have hf := startsAt_ofFlow hg name E.params
  have hj : (ofFlow name E.ret E.params g).Justified .empty :=
    ⟨fun v hv => (nomatch hv), fun t ht => (nomatch ht)⟩
  rcases List.mem_cons.mp hb with rfl | hb
  · exact ⟨.empty, entryLabel_eq ▸ hf.starts, hj⟩
  · exact hf.2.starts_of_mem hj (List.mem_of_getElem? hf.1) (List.nil_append _).symm hb

/-- The function of a typed flow is in single-assignment form. -/
theorem singleAssignment_ofFlow {g : Flow} (hg : g.Typed E 0 .empty g.defs) (name : String) :
    (ofFlow name E.ret E.params g).SingleAssignment := by
  have hf := startsAt_ofFlow hg name E.params
  have hlabels := (labelled_ofFlow name E.ret E.params g).nodup
  have hdefined : (ofFlow name E.ret E.params g).defined.Perm ((List.range g.defs).map .temp) := by
    rw [List.range_eq_range']
    exact hg.perm_definedBy 1 (some (ending E.ret))
  have hnodup := nodup_defined hdefined
  refine ⟨hdefined, ?_, ?_, ?_⟩
  · intro b hb before i after hs v hv
    refine usable_of_starts hf hlabels hnodup (starts_ofFlow hg name hb) fun Δ hstart => ?_
    obtain ⟨_, _, g', _, _, rfl, -, -, ⟨_, _, -, htyped⟩, -⟩ := hstart
    exact htyped.usable hs hv
  · intro b hb t ht v hv
    refine usable_of_starts hf hlabels hnodup (starts_ofFlow hg name hb) fun Δ hstart => ?_
    obtain ⟨_, _, g', _, _, rfl, -, -, ⟨_, _, -, htyped⟩, hexit⟩ := hstart
    obtain ⟨Δ', hsince, hw⟩ := htyped.operand_terminator hexit.operands ht hv
    exact hw.usable.mono hsince.values
  · intro b hb i hi ptr hop
    obtain ⟨Δ, ⟨_, _, g', _, _, rfl, -, -, ⟨_, _, -, htyped⟩, -⟩, hj⟩ := starts_ofFlow hg name hb
    rcases htyped.reserved hi hop with ⟨t, ht, rfl⟩ | hres
    · exact hj.slots t ht
    · exact ⟨_, hb, hres⟩

end Function
end IR

/-- Lowering gives functions in single-assignment form: every temporary is defined once, and before
it is used. -/
theorem Program.singleAssignment_of_lower {p : Program} {name : String} {m : IR.Module}
    (h : p.lower name = .ok m) : ∀ f ∈ m.functions, f.SingleAssignment := by
  intro f hf
  obtain ⟨d, -, hd⟩ := exists_lowersTo h hf
  obtain ⟨g, rfl, hg⟩ := hd.typed
  exact IR.Function.singleAssignment_ofFlow hg d.name

/-- A program whose conditionals use parameters and variables. -/
theorem Program.singleAssignment_sample : ∃ m, sample.lower "sample" = .ok m ∧
    ∀ f ∈ m.functions, f.SingleAssignment := by
  obtain ⟨m, hm⟩ := Program.exists_lower_sample
  exact ⟨m, hm, singleAssignment_of_lower hm⟩

end ProcLang

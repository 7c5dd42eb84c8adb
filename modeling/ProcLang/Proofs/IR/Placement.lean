import ProcLang.Proofs.ControlFlow
import ProcLang.Proofs.IR.Typing

/-!
# Typed flows in their place

A flow that is laid out in a function is followed by others: the case of a conditional by what
stands behind the conditional, and that by what stands behind the next conditional outside.
`Function.Leads` says that what follows is typed as well, with no more than what is known at that
point. From it we get what is known at the start of every block that a branch goes to.

## Main definitions

* `Function.Leads` — what follows a flow.
* `Function.Has` — a typed flow in its place.
* `Function.Starts` — a block that starts a flow.

## Main statements

* `Function.Has.branch` — a branch goes to a block that starts a flow, and what is known there was
  known before or has been defined on the way to the branch.
-/
namespace ProcLang.IR

namespace Ctx

theorem mem_values_define {Δ : Ctx} {k : Nat} {ty : Ty} {v : Value} :
    v ∈ (Δ.define k ty).values ↔ v = ⟨.temp k, ty⟩ ∨ v ∈ Δ.values := by
  simp [values, define]

theorem mem_values_bind {Δ : Ctx} {k : Nat} {ty : Ty} {v : Value} :
    v ∈ (Δ.bind k ty).values ↔ v = ⟨.temp k, .ptr ty⟩ ∨ v ∈ Δ.values := by
  simp only [values, bind, List.map_cons, List.mem_append, List.mem_cons]
  grind

theorem values_subset {Δ Δ' : Ctx} (h : Δ ⊆ Δ') : Δ.values ⊆ Δ'.values := by
  intro v hv
  simp only [values, List.mem_append, List.mem_map] at hv ⊢
  rcases hv with ⟨t, ht, rfl⟩ | ⟨t, ht, rfl⟩
  · exact .inl ⟨t, h.1 ht, rfl⟩
  · exact .inr ⟨t, h.2 ht, rfl⟩

end Ctx

/-- Only temporaries with numbers below `n` are known. -/
def Ctx.Below (Δ : Ctx) (n : Nat) : Prop := ∀ v ∈ Δ.values, ∃ k < n, v.kind = .temp k

namespace Ctx.Below

variable {Δ : Ctx} {n n' : Nat}

theorem mono (h : Δ.Below n) (hn : n ≤ n') : Δ.Below n' := by
  intro v hv
  obtain ⟨k, hk, hkind⟩ := h v hv
  exact ⟨k, by omega, hkind⟩

theorem define (h : Δ.Below n) (ty : Ty) : (Δ.define n ty).Below (n + 1) := by
  intro v hv
  rcases mem_values_define.mp hv with rfl | hv
  · exact ⟨n, Nat.lt_succ_self n, rfl⟩
  · exact h.mono (Nat.le_succ n) v hv

theorem bind (h : Δ.Below n) (ty : Ty) : (Δ.bind n ty).Below (n + 1) := by
  intro v hv
  rcases mem_values_bind.mp hv with rfl | hv
  · exact ⟨n, Nat.lt_succ_self n, rfl⟩
  · exact h.mono (Nat.le_succ n) v hv

end Ctx.Below

/-- Temporary `k` is not among what is known. -/
def Ctx.Fresh (Δ : Ctx) (k : Nat) : Prop := ∀ v ∈ Δ.values, v.kind ≠ .temp k

theorem Ctx.Below.fresh {Δ : Ctx} {n : Nat} (h : Δ.Below n) : Δ.Fresh n := by
  intro v hv hkind
  obtain ⟨k, hk, hkind'⟩ := h v hv
  rw [hkind] at hkind'
  cases hkind'
  exact Nat.lt_irrefl _ hk

/-- A flow that is typed where `Δ` is known and that defines other temporaries than those of `Δ`. -/
def Flow.TypedIn (E : Env) (Δ : Ctx) (g : Flow) : Prop := ∃ k k', Δ.Below k ∧ g.Typed E k Δ k'

/-- One of the instructions defines `v`. -/
def Defines (is : List Instr) (v : Value) : Prop := ∃ i ∈ is, i.result = some v

namespace Function

/-- The blocks of a function from index `n` on are the given ones. -/
def Holds (f : Function) (n : Nat) (bs : List Block) : Prop :=
  ∀ i b, bs[i]? = some b → f.blocks[n + i]? = some b

theorem holds_cons {f : Function} {n : Nat} {b : Block} {bs : List Block} :
    f.Holds n (b :: bs) ↔ f.blocks[n]? = some b ∧ f.Holds (n + 1) bs := by
  constructor
  · intro h
    refine ⟨h 0 b rfl, fun i b' hb' => ?_⟩
    have := h (i + 1) b' hb'
    rwa [Nat.add_comm i 1, ← Nat.add_assoc] at this
  · rintro ⟨hb, hbs⟩ i b' hb'
    cases i with
    | zero =>
      cases hb'
      exact hb
    | succ i =>
      have := hbs i b' hb'
      rwa [Nat.add_assoc, Nat.add_comm 1 i] at this

theorem holds_append {f : Function} {n : Nat} {bs bs' : List Block} :
    f.Holds n (bs ++ bs') ↔ f.Holds n bs ∧ f.Holds (n + bs.length) bs' := by
  induction bs generalizing n with
  | nil => simp [Holds]
  | cons b bs ih =>
    have hn : n + 1 + bs.length = n + (bs.length + 1) := by omega
    simp [holds_cons, ih, and_assoc, hn]

/-- Where the parts of a conditional are. -/
theorem holds_when {f : Function} {cond : Value} {yes rest : Flow} {n : Nat} {e : Terminator}
    (h : f.Holds n ((Flow.when cond yes rest).blocks n (some e))) :
    f.blocks[n]? = some (yes.block "if.true" n (n + 1) (some (.br (Flow.nextLabel n yes)))) ∧
      f.Holds (n + 1) (yes.blocks (n + 1) (some (.br (Flow.nextLabel n yes)))) ∧
      f.blocks[n + 1 + yes.size]? =
        some (rest.block "if.next" (n + 1 + yes.size) (n + 2 + yes.size) (some e)) ∧
      f.Holds (n + 2 + yes.size) (rest.blocks (n + 2 + yes.size) (some e)) := by
  have hn : n + 1 + yes.size + 1 = n + 2 + yes.size := by omega
  simpa only [Flow.blocks, List.cons_append, holds_cons, holds_append, Flow.length_blocks, hn]
    using h

/-- Where the parts of a conditional with two cases are. -/
theorem holds_either {f : Function} {cond : Value} {yes no rest : Flow} {base : String} {n : Nat}
    {e : Terminator} (h : f.Holds n ((Flow.either cond yes base no rest).blocks n (some e))) :
    f.blocks[n]? = some (yes.block "if.true" n (n + 1) (some (.br (Flow.nextLabel n yes)))) ∧
      f.Holds (n + 1) (yes.blocks (n + 1) (some (.br (Flow.nextLabel n yes)))) ∧
      f.blocks[n + 1 + yes.size]? = some
        (rest.block "if.next" (n + 1 + yes.size) (n + 3 + yes.size + no.size) (some e)) ∧
      f.blocks[n + 2 + yes.size]? = some
        (no.block base (n + 2 + yes.size) (n + 3 + yes.size) (some (.br (Flow.nextLabel n yes)))) ∧
      f.Holds (n + 3 + yes.size)
        (no.blocks (n + 3 + yes.size) (some (.br (Flow.nextLabel n yes)))) ∧
      f.Holds (n + 3 + yes.size + no.size)
        (rest.blocks (n + 3 + yes.size + no.size) (some e)) := by
  have hn₁ : n + 1 + yes.size + 1 = n + 2 + yes.size := by omega
  have hn₂ : n + 1 + yes.size + 2 = n + 3 + yes.size := by omega
  have hn₃ : n + 2 + yes.size + 1 = n + 3 + yes.size := by omega
  simpa only [Flow.blocks, List.cons_append, List.append_assoc, holds_cons, holds_append,
    Flow.length_blocks, hn₁, hn₂, hn₃] using h

/-- What follows a flow that goes on with `e` where `Δ` is known: the end of the function, or a
typed flow that needs no more than `Δ` and what follows it in turn. -/
inductive Leads (f : Function) (E : Env) : Ctx → Terminator → Prop where
  | ending (Δ : Ctx) : Leads f E Δ (ending E.ret)
  | next {Δ Δ' : Ctx} {base : String} {i n : Nat} {g : Flow} {e : Terminator} (hsub : Δ' ⊆ Δ)
      (hblock : f.blocks[i]? = some (g.block base i n (some e)))
      (hblocks : f.Holds n (g.blocks n (some e))) (htyped : g.TypedIn E Δ')
      (hexit : Leads f E Δ' e) : Leads f E Δ (.br (blockLabel base i))

theorem Leads.mono {f : Function} {E : Env} {Δ Δ' : Ctx} {e : Terminator} (hsub : Δ ⊆ Δ')
    (h : f.Leads E Δ e) : f.Leads E Δ' e := by
  cases h with
  | ending => exact .ending Δ'
  | next hsub' hblock hblocks htyped hexit =>
    exact .next (Ctx.Subset.trans hsub' hsub) hblock hblocks htyped hexit

/-- A typed flow in its place: its new blocks are those from `n` on, and it goes on with `e`. -/
structure Has (f : Function) (E : Env) (Δ : Ctx) (g : Flow) (n : Nat) (e : Terminator) : Prop where
  blocks : f.Holds n (g.blocks n (some e))
  typed : g.TypedIn E Δ
  exit : f.Leads E Δ e

/-- A flow in its place, with the block of index `i` for its start. -/
def StartsAt (f : Function) (E : Env) (Δ : Ctx) (base : String) (i : Nat) (g : Flow) (n : Nat)
    (e : Terminator) : Prop :=
  f.blocks[i]? = some (g.block base i n (some e)) ∧ f.Has E Δ g n e

/-- A block that starts a flow, where `Δ` is known. -/
def Starts (f : Function) (E : Env) (Δ : Ctx) (b : Block) : Prop :=
  ∃ base i g n e, b = Flow.block base i n (some e) g ∧ f.StartsAt E Δ base i g n e

variable {f : Function} {E : Env} {Δ : Ctx} {n : Nat} {e : Terminator}

theorem StartsAt.starts {base : String} {i : Nat} {g : Flow} (h : f.StartsAt E Δ base i g n e) :
    f.Starts E Δ (g.block base i n (some e)) :=
  ⟨base, i, g, n, e, rfl, h⟩

theorem Leads.start (h : f.Leads E Δ e) {l : String} (hl : l ∈ e.targets) :
    ∃ Δ' b, b.label = l ∧ f.Starts E Δ' b ∧ Δ' ⊆ Δ := by
  cases h with
  | ending =>
    rw [targets_ending] at hl
    cases hl
  | next hsub hblock hblocks htyped hexit =>
    obtain rfl := List.mem_singleton.mp hl
    have hstart : f.StartsAt E _ _ _ _ _ _ := ⟨hblock, hblocks, htyped, hexit⟩
    exact ⟨_, _, rfl, hstart.starts, hsub⟩

namespace Has

theorem emit {i : Instr} {rest : Flow} (h : f.Has E Δ (.emit i rest) n e) :
    (∃ k ty, i.result = some ⟨.temp k, ty⟩ ∧ Δ.Fresh k ∧ ty.isScalar = true ∧ i.op.Typed E Δ ty ∧
        f.Has E (Δ.define k ty) rest n e) ∨
      ∃ ty, i.result = none ∧ ty.isVoid = true ∧ i.op.Typed E Δ ty ∧ f.Has E Δ rest n e := by
  obtain ⟨hblocks, ⟨k, k', hk, htyped⟩, hexit⟩ := h
  cases htyped with
  | define hop hs hrest =>
    refine .inl ⟨_, _, rfl, hk.fresh, hs, hop, hblocks, ⟨_, _, hk.define _, hrest⟩, ?_⟩
    exact hexit.mono (Δ.subset_define _ _)
  | perform hop hv hrest => exact .inr ⟨_, rfl, hv, hop, hblocks, ⟨_, _, hk, hrest⟩, hexit⟩

theorem bind {k : Nat} {v : Value} {rest : Flow} (h : f.Has E Δ (.bind k v rest) n e) :
    Δ.Fresh k ∧ Operand E Δ v ∧ v.ty.isScalar = true ∧ f.Has E (Δ.bind k v.ty) rest n e := by
  obtain ⟨hblocks, ⟨_, _, hk, htyped⟩, hexit⟩ := h
  cases htyped with
  | bind hv hs hrest =>
    refine ⟨hk.fresh, hv, hs, hblocks, ⟨_, _, hk.bind _, hrest⟩, ?_⟩
    exact hexit.mono (Δ.subset_bind _ _)

theorem when {cond : Value} {yes rest : Flow} (h : f.Has E Δ (.when cond yes rest) n e) :
    Operand E Δ cond ∧ cond.ty = .i1 ∧
      f.StartsAt E Δ "if.true" n yes (n + 1) (.br (Flow.nextLabel n yes)) ∧
      f.StartsAt E Δ "if.next" (n + 1 + yes.size) rest (n + 2 + yes.size) e := by
  obtain ⟨hblocks, ⟨k, k', hk, htyped⟩, hexit⟩ := h
  cases htyped with
  | when hc hty hyes hrest =>
    have hrest' : rest.TypedIn E Δ := ⟨_, _, hk.mono (by have := hyes.count; omega), hrest⟩
    obtain ⟨hy, hys, hr, hrs⟩ := holds_when hblocks
    refine ⟨hc, hty, ⟨hy, hys, ⟨_, _, hk, hyes⟩, ?_⟩, hr, hrs, hrest', hexit⟩
    exact .next (.refl Δ) hr hrs hrest' hexit

theorem either {cond : Value} {yes no rest : Flow} {base : String}
    (h : f.Has E Δ (.either cond yes base no rest) n e) :
    Operand E Δ cond ∧ cond.ty = .i1 ∧
      f.StartsAt E Δ "if.true" n yes (n + 1) (.br (Flow.nextLabel n yes)) ∧
      f.StartsAt E Δ base (n + 2 + yes.size) no (n + 3 + yes.size) (.br (Flow.nextLabel n yes)) ∧
      f.StartsAt E Δ "if.next" (n + 1 + yes.size) rest (n + 3 + yes.size + no.size) e := by
  obtain ⟨hblocks, ⟨k, k', hk, htyped⟩, hexit⟩ := h
  cases htyped with
  | either hc hty hyes hno hrest =>
    have hy' := hyes.count
    have hn' := hno.count
    have hno' : no.TypedIn E Δ := ⟨_, _, hk.mono (by omega), hno⟩
    have hrest' : rest.TypedIn E Δ := ⟨_, _, hk.mono (by omega), hrest⟩
    obtain ⟨hy, hys, hr, hn, hns, hrs⟩ := holds_either hblocks
    have hgo : f.Leads E Δ (.br (Flow.nextLabel n yes)) := .next (.refl Δ) hr hrs hrest' hexit
    exact ⟨hc, hty, ⟨hy, hys, ⟨_, _, hk, hyes⟩, hgo⟩, ⟨hn, hns, hno', hgo⟩, hr, hrs, hrest', hexit⟩

/-- A branch goes to a block that starts a flow. What is known there was known before or has been
defined since. -/
theorem branch {g : Flow} (h : f.Has E Δ g n e) {l : String}
    (hl : l ∈ (g.terminator n (some e)).elim [] Terminator.targets) :
    ∃ Δ' b, b.label = l ∧ f.Starts E Δ' b ∧
      ∀ v ∈ Δ'.values, v ∈ Δ.values ∨ Defines g.instrs v := by
  induction g generalizing Δ with
  | fall =>
    obtain ⟨Δ', b, hb, hstart, hsub⟩ := h.exit.start hl
    exact ⟨Δ', b, hb, hstart, fun v hv => .inl (Ctx.values_subset hsub hv)⟩
  | ret value => cases hl
  | emit i rest ih =>
    obtain ⟨k, ty, hres, -, -, -, hrest⟩ | ⟨ty, -, -, -, hrest⟩ := h.emit
    · obtain ⟨Δ', b, hb, hstart, hval⟩ := ih hrest hl
      refine ⟨Δ', b, hb, hstart, fun v hv => ?_⟩
      rcases hval v hv with hv | ⟨j, hj, hv⟩
      · rcases Ctx.mem_values_define.mp hv with rfl | hv
        · exact .inr ⟨i, List.mem_cons_self, hres⟩
        · exact .inl hv
      · exact .inr ⟨j, List.mem_cons_of_mem _ hj, hv⟩
    · obtain ⟨Δ', b, hb, hstart, hval⟩ := ih hrest hl
      refine ⟨Δ', b, hb, hstart, fun v hv => ?_⟩
      exact (hval v hv).imp_right fun ⟨j, hj, hv⟩ => ⟨j, List.mem_cons_of_mem _ hj, hv⟩
  | bind k value rest ih =>
    obtain ⟨-, -, -, hrest⟩ := h.bind
    obtain ⟨Δ', b, hb, hstart, hval⟩ := ih hrest hl
    refine ⟨Δ', b, hb, hstart, fun v hv => ?_⟩
    rcases hval v hv with hv | ⟨j, hj, hv⟩
    · rcases Ctx.mem_values_bind.mp hv with rfl | hv
      · exact .inr ⟨_, List.mem_cons_self, rfl⟩
      · exact .inl hv
    · exact .inr ⟨j, List.mem_append_right _ hj, hv⟩
  | when cond yes rest =>
    obtain ⟨-, -, hyes, hrest⟩ := h.when
    obtain rfl | rfl : l = blockLabel "if.true" n ∨ l = Flow.nextLabel n yes := by
      simpa [Flow.terminator, Terminator.targets] using hl
    · exact ⟨Δ, _, rfl, hyes.starts, fun v hv => .inl hv⟩
    · exact ⟨Δ, _, rfl, hrest.starts, fun v hv => .inl hv⟩
  | either cond yes base no rest =>
    obtain ⟨-, -, hyes, hno, -⟩ := h.either
    obtain rfl | rfl : l = blockLabel "if.true" n ∨ l = blockLabel base (n + 2 + yes.size) := by
      simpa [Flow.terminator, Terminator.targets] using hl
    · exact ⟨Δ, _, rfl, hyes.starts, fun v hv => .inl hv⟩
    · exact ⟨Δ, _, rfl, hno.starts, fun v hv => .inl hv⟩

end Has

/-- Where the blocks of the function of a flow are. -/
theorem holds_ofFlow (name : String) (ret : Ty) (params : List (String × Ty)) (g : Flow) :
    (ofFlow name ret params g).blocks[0]? = some (g.block "entry" 0 1 (some (ending ret))) ∧
      (ofFlow name ret params g).Holds 1 (g.blocks 1 (some (ending ret))) := by
  have hholds : (ofFlow name ret params g).Holds 0 (ofFlow name ret params g).blocks := by
    intro i b hb
    simpa using hb
  obtain ⟨hentry, hblocks⟩ := holds_cons.mp hholds
  rw [entryLabel_eq] at hentry
  exact ⟨hentry, hblocks⟩

/-- The function of a typed flow starts with it. -/
theorem startsAt_ofFlow {E : Env} {g : Flow} {k : Nat} (hg : g.Typed E 0 .empty k)
    (name : String) (params : List (String × Ty)) :
    (ofFlow name E.ret params g).StartsAt E .empty "entry" 0 g 1 (ending E.ret) := by
  obtain ⟨hentry, hblocks⟩ := holds_ofFlow name E.ret params g
  exact ⟨hentry, hblocks, ⟨_, _, fun v hv => (nomatch hv), hg⟩, .ending _⟩

end Function
end ProcLang.IR

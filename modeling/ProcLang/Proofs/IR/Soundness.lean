import Mathlib.Data.List.Forall2
import ProcLang.Proofs.SingleAssignment

/-!
# Running typed code

While typed code runs, every temporary and every storage holds a value of its type, and what is
known at a place has a value there. An instruction keeps this up, and a terminator leads to a block
where it holds again, or ends the call with a value of the type that the function returns. What can
go wrong is left to a few faults.

## Main definitions

* `Fault.Natural` — the faults of typed code.
* `Run.Safe` — a run whose outcome, if it has one, is as expected or such a fault.
* `Activation.Typed`, `Activation.Knows` — typed frames, and frames with values for what is known.
* `Ready` — a typed frame with typed code ahead.

## Main statements

* `Ready.instr`, `Ready.terminator` — what one instruction and one terminator do.
-/
namespace ProcLang.IR

/-- The faults that typed code can end with: a division that has no result, or the end of one of
the given functions where a value should have been returned. -/
inductive Fault.Natural (functions : List String) : Fault → Prop where
  | divideByZero : Natural functions .divideByZero
  | divideOverflow : Natural functions .divideOverflow
  | unreachable {name : String} (h : name ∈ functions) : Natural functions (.unreachable name)

namespace Run

variable {α β : Type} {functions : List String} {P : α → Prop} {Q : β → Prop}

/-- If the run has an outcome, this is a value with the property `P` or a natural fault. -/
def Safe (functions : List String) (P : α → Prop) (x : Run α) : Prop :=
  (∀ a, x.run = some (.ok a) → P a) ∧ ∀ e, x.run = some (.error e) → e.Natural functions

theorem Safe.seq {x : Run α} {k : α → Run β} (hx : x.Safe functions P)
    (hk : ∀ a, P a → (k a).Safe functions Q) : (x >>= k).Safe functions Q := by
  constructor
  · intro b h
    obtain ⟨a, ha, hb⟩ := seq_eq_ok.mp h
    exact (hk a (hx.1 a ha)).1 b hb
  · intro e h
    obtain he | ⟨a, ha, he⟩ := seq_eq_error.mp h
    · exact hx.2 e he
    · exact (hk a (hx.1 a ha)).2 e he

theorem safe_pure {a : α} (h : P a) : (pure a : Run α).Safe functions P := by
  constructor
  · rintro _ ⟨⟩
    exact h
  · rintro _ ⟨⟩

theorem safe_ok {a : α} {x : Except Fault α} (hx : x = .ok a) (h : P a) :
    (ofExcept x).Safe functions P :=
  hx ▸ safe_pure h

theorem safe_error {e : Fault} {x : Except Fault α} (hx : x = .error e) (h : e.Natural functions) :
    (ofExcept x).Safe functions P := by
  subst hx
  constructor
  · rintro _ ⟨⟩
  · rintro _ ⟨⟩
    exact h

theorem safe_outOfFuel : (outOfFuel : Run α).Safe functions P :=
  ⟨fun _ h => (nomatch h), fun _ h => (nomatch h)⟩

end Run

/-! ## Values -/

theorem Ty.scalar_cases {ty : Ty} (h : ty.isScalar = true) :
    ty = .i1 ∨ ty.isInt = true ∨ ty.isFloat = true := by
  cases ty <;> simp_all [isScalar, isInt, isFloat]

/-- The operands of arithmetic are integers or floats, and each has its own division. -/
theorem Arith.number_of_accepts {op : Arith} {ty : Ty} (h : op.accepts ty = true) :
    ty.isInt = true ∧ op ≠ .fdiv ∨ ty.isFloat = true ∧ op ≠ .sdiv := by
  cases op <;> simp_all [accepts, Ty.isNumber]

namespace Datum

variable {ty : Ty} {l r d : Datum}

/-- A value with which a function that returns `ty` may end. -/
def Returned (ty : Ty) : Option Datum → Prop
  | some d => d.Canonical ty
  | none => ty.isVoid = true

theorem Returned.scalar {d : Option Datum} (h : Returned ty d) (hs : ty.isScalar = true) :
    ∃ x, d = some x ∧ x.Canonical ty := by
  cases d with
  | some x => exact ⟨x, rfl, h⟩
  | none => cases ty <;> first | cases (h : false = true) | cases hs

theorem Returned.void {d : Option Datum} (h : Returned ty d) (hv : ty.isVoid = true) :
    d = none := by
  cases d with
  | none => rfl
  | some x =>
    obtain rfl : ty = .void := by cases ty <;> first | rfl | cases hv
    exact (h : False).elim

theorem canonical_int (h : d.Canonical ty) (hty : ty.isInt = true) : ∃ v, d = .int v := by
  cases ty <;> cases hty <;> cases d <;> first | exact ⟨_, rfl⟩ | cases h

theorem canonical_float (h : d.Canonical ty) (hty : ty.isFloat = true) : ∃ v, d = .float v := by
  cases ty <;> cases hty <;> cases d <;> first | exact ⟨_, rfl⟩ | cases h

theorem canonical_bool (h : d.Canonical .i1) : ∃ v, d = .bool v := by
  cases d <;> first | exact ⟨_, rfl⟩ | cases h

/-- A division has a result, or it is one without. -/
theorem divide_typed (functions : List String) (l r : Int64) :
    (∃ v, divide l r = .ok v) ∨ ∃ e, divide l r = .error e ∧ e.Natural functions := by
  unfold divide
  split
  · exact .inr ⟨_, rfl, .divideByZero⟩
  · split
    · exact .inr ⟨_, rfl, .divideOverflow⟩
    · exact .inl ⟨_, rfl⟩

/-- Arithmetic has a result, or it is a division without one. -/
theorem arith_typed {op : Arith} (functions : List String) (hop : op.accepts ty = true)
    (hl : l.Canonical ty) (hr : r.Canonical ty) :
    (∃ d, arith op l r = .ok d ∧ (d.narrow ty).Canonical ty) ∨
      ∃ e, arith op l r = .error e ∧ e.Natural functions := by
  rcases op.number_of_accepts hop with ⟨hty, hne⟩ | ⟨hty, hne⟩
  · obtain ⟨x, rfl⟩ := canonical_int hl hty
    obtain ⟨y, rfl⟩ := canonical_int hr hty
    cases op with
    | add | sub | mul => exact .inl ⟨_, rfl, canonical_narrowInt hty _⟩
    | fdiv => exact absurd rfl hne
    | sdiv =>
      rcases divide_typed functions x y with ⟨v, hv⟩ | ⟨e, he, hnat⟩
      · exact .inl ⟨.int v, by simp [arith, arithInt, hv, Except.map], canonical_narrowInt hty v⟩
      · exact .inr ⟨e, by simp [arith, arithInt, he, Except.map], hnat⟩
  · obtain ⟨x, rfl⟩ := canonical_float hl hty
    obtain ⟨y, rfl⟩ := canonical_float hr hty
    cases op with
    | add | sub | mul | fdiv => exact .inl ⟨_, rfl, canonical_narrowFloat hty _⟩
    | sdiv => exact absurd rfl hne

/-- Values of one type can be compared. -/
theorem order_typed (hty : ty.isScalar = true) (hl : l.Canonical ty) (hr : r.Canonical ty) :
    ∃ o, order l r = .ok o := by
  rcases ty.scalar_cases hty with rfl | hty | hty
  · obtain ⟨x, rfl⟩ := canonical_bool hl
    obtain ⟨y, rfl⟩ := canonical_bool hr
    exact ⟨_, rfl⟩
  · obtain ⟨x, rfl⟩ := canonical_int hl hty
    obtain ⟨y, rfl⟩ := canonical_int hr hty
    exact ⟨_, rfl⟩
  · obtain ⟨x, rfl⟩ := canonical_float hl hty
    obtain ⟨y, rfl⟩ := canonical_float hr hty
    exact ⟨_, rfl⟩

/-- A conversion that there is has a result. -/
theorem convert_typed {ty' : Ty} {op : Conversion} (hop : Conversion.between? ty ty' = some op)
    (hd : d.Canonical ty) : ∃ d', convert op d = .ok d' ∧ (d'.narrow ty').Canonical ty' := by
  cases Conversion.between_of_eq_some hop with
  | zext hty =>
    obtain ⟨b, rfl⟩ := canonical_bool hd
    exact ⟨_, rfl, canonical_narrowInt hty _⟩
  | sext hty hty' | trunc hty hty' =>
    obtain ⟨v, rfl⟩ := canonical_int hd hty
    exact ⟨_, rfl, canonical_narrowInt hty' v⟩
  | fpext hty hty' | fptrunc hty hty' =>
    obtain ⟨x, rfl⟩ := canonical_float hd hty
    exact ⟨_, rfl, canonical_narrowFloat hty' x⟩
  | sitofp hty hty' =>
    obtain ⟨v, rfl⟩ := canonical_int hd hty
    exact ⟨_, rfl, canonical_narrowFloat hty' _⟩
  | uitofp hty =>
    obtain ⟨b, rfl⟩ := canonical_bool hd
    exact ⟨_, rfl, canonical_narrowFloat hty _⟩
  | fptosi hty hty' =>
    obtain ⟨x, rfl⟩ := canonical_float hd hty
    exact ⟨_, rfl, canonical_narrowInt hty' _⟩

end Datum

/-! ## Frames -/

/-- What the instructions of a function define as temporary `k` has type `ty`. -/
def Function.HasType (f : Function) (k : Nat) (ty : Ty) : Prop :=
  ∀ ty', (∃ b ∈ f.blocks, Defines b.instrs ⟨.temp k, ty'⟩) ↔ ty' = ty

/-- What a function may refer to in a module with the given signatures. -/
def Function.env (f : Function) (sigs : List Signature) : Env := ⟨f.params, f.ret, sigs⟩

/-- The values of a type, where storage holds values of the types `cells`. -/
def Datum.Fits (cells : List Ty) (ty : Ty) (d : Datum) : Prop :=
  match ty, d with
  | .ptr target, .ptr i => cells[i]? = some target
  | ty, d => d.Canonical ty

theorem Datum.Canonical.fits {ty : Ty} {d : Datum} (h : d.Canonical ty) (cells : List Ty) :
    d.Fits cells ty := by
  cases ty <;> cases d <;> first | exact h | cases h

theorem Datum.Fits.append {cells : List Ty} {ty : Ty} {d : Datum} (h : d.Fits cells ty)
    (more : List Ty) : d.Fits (cells ++ more) ty := by
  unfold Fits at h ⊢
  split at h
  · exact (List.getElem?_append_left (List.getElem?_eq_some_iff.mp h).1).trans h
  · exact h

/-- Storage that holds values of the types `cells`, as far as it has been filled. -/
structure Stores (cells : List Ty) (memory : List (Option Datum)) : Prop where
  size : cells.length = memory.length
  cell : ∀ (i : Nat) (ty : Ty) (d : Datum), cells[i]? = some ty → memory[i]? = some (some d) →
    d.Canonical ty

namespace Stores

variable {cells : List Ty} {memory : List (Option Datum)}

theorem push (h : Stores cells memory) (ty : Ty) : Stores (cells ++ [ty]) (memory ++ [none]) := by
  refine ⟨by simp [h.size], fun i ty' d hi hd => ?_⟩
  have hlt : i < memory.length := by
    by_contra hge
    rw [List.getElem?_append_right (by omega)] at hd
    simp [List.getElem?_singleton] at hd
  rw [List.getElem?_append_left hlt] at hd
  rw [List.getElem?_append_left (h.size ▸ hlt)] at hi
  exact h.cell i ty' d hi hd

theorem set {i : Nat} {d : Datum} {ty : Ty} (h : Stores cells memory) (hi : cells[i]? = some ty)
    (hd : d.Canonical ty) : Stores cells (memory.set i (some d)) := by
  refine ⟨by simp [h.size], fun j ty' x hj hx => ?_⟩
  rw [List.getElem?_set] at hx
  split at hx
  · subst j
    rw [hi] at hj
    cases hj
    split at hx
    · cases hx
      exact hd
    · cases hx
  · exact h.cell j ty' x hj hx

end Stores

namespace Activation

/-- Every parameter, temporary and storage of a call of `f` holds a value of its type. -/
structure Typed (f : Function) (cells : List Ty) (a : Activation) : Prop where
  params : ∀ p ∈ f.params, ∃ d, a.params.lookup p.1 = some d ∧ d.Canonical p.2
  temps : ∀ k d, a.temps k = some d → ∃ ty, f.HasType k ty ∧ d.Fits cells ty
  memory : Stores cells a.memory

/-- What is known has a value. -/
structure Knows (cells : List Ty) (Δ : Ctx) (a : Activation) : Prop where
  temps : ∀ t ∈ Δ.temps, ∃ d, a.temps t.1 = some d ∧ d.Canonical t.2
  slots : ∀ t ∈ Δ.slots, ∃ i d, a.temps t.1 = some (.ptr i) ∧ cells[i]? = some t.2 ∧
    a.memory[i]? = some (some d)

variable {f : Function} {sigs : List Signature} {cells : List Ty} {Δ : Ctx} {a : Activation}

theorem Typed.get (ha : a.Typed f cells) (hΔ : a.Knows cells Δ) {v : Value}
    (h : Operand (f.env sigs) Δ v) : ∃ d, a.get v = .ok d ∧ d.Canonical v.ty := by
  cases h with
  | temp h =>
    obtain ⟨d, hd, hty⟩ := hΔ.temps _ h
    exact ⟨d, by simp [Activation.get, hd], hty⟩
  | param h =>
    obtain ⟨d, hd, hty⟩ := ha.params _ h
    exact ⟨d, by simp [Activation.get, hd], hty⟩
  | const h => exact ⟨_, rfl, h⟩

theorem Typed.getAll (ha : a.Typed f cells) (hΔ : a.Knows cells Δ) {vs : List Value}
    (h : ∀ v ∈ vs, Operand (f.env sigs) Δ v) :
    ∃ ds, a.getAll vs = .ok ds ∧ List.Forall₂ Datum.Canonical (vs.map (·.ty)) ds := by
  induction vs with
  | nil => exact ⟨[], rfl, .nil⟩
  | cons v vs ih =>
    obtain ⟨d, hd, hty⟩ := ha.get hΔ (h v List.mem_cons_self)
    obtain ⟨ds, hds, htys⟩ := ih fun v hv => h v (List.mem_cons_of_mem _ hv)
    refine ⟨d :: ds, ?_, .cons hty htys⟩
    simp only [Activation.getAll, hd, hds]
    rfl

theorem Typed.load (ha : a.Typed f cells) (hΔ : a.Knows cells Δ) {k : Nat} {ty : Ty}
    (h : (k, ty) ∈ Δ.slots) : ∃ d, a.load ⟨.temp k, .ptr ty⟩ = .ok d ∧ d.Canonical ty := by
  obtain ⟨i, d, hk, hi, hd⟩ := hΔ.slots _ h
  have hget : a.get ⟨.temp k, .ptr ty⟩ = .ok (.ptr i) := by simp [Activation.get, hk]
  exact ⟨d, load_eq hget hd, ha.memory.cell i ty d hi hd⟩

end Activation

/-- Calls of the functions `sigs` are safe and return values of the right type. -/
def SafeCalls (functions : List String) (sigs : List Signature)
    (call : String → List Datum → Run (Option Datum)) : Prop :=
  ∀ sig ∈ sigs, ∀ ds, List.Forall₂ Datum.Canonical sig.params ds →
    (call sig.name ds).Safe functions (Datum.Returned sig.ret)

section Operations

variable {f : Function} {functions : List String} {sigs : List Signature}
  {call : String → List Datum → Run (Option Datum)} {cells : List Ty} {Δ : Ctx} {a : Activation}

/-- A typed operation leaves the frame as it was and gives a value of its type. -/
theorem Operation.Typed.safe {op : Operation} {ty : Ty} (h : op.Typed (f.env sigs) Δ ty)
    (ha : a.Typed f cells) (hΔ : a.Knows cells Δ) (hcall : SafeCalls functions sigs call) :
    (op.run call a).Safe functions fun r => Datum.Returned ty r.1 ∧ r.2 = a := by
  cases h with
  | load h =>
    obtain ⟨d, hd, hty⟩ := ha.load hΔ h
    exact (Run.safe_ok hd hty).seq fun d hty => Run.safe_pure ⟨hty, rfl⟩
  | @arith op l r hl hr hty hop =>
    obtain ⟨x, hx, hxty⟩ := ha.get hΔ hl
    obtain ⟨y, hy, hyty⟩ := ha.get hΔ hr
    rw [hty] at hyty
    refine Run.Safe.seq (P := fun d => d.Canonical l.ty) ?_ fun d hd => Run.safe_pure ⟨hd, rfl⟩
    rw [Activation.arith_eq _ hx hy]
    rcases Datum.arith_typed functions hop hxty hyty with ⟨d, hd, hd'⟩ | ⟨e, he, hnat⟩
    · rw [hd]
      exact Run.safe_pure hd'
    · rw [he]
      exact Run.safe_error rfl hnat
  | compare hl hr hty hs =>
    obtain ⟨x, hx, hxty⟩ := ha.get hΔ hl
    obtain ⟨y, hy, hyty⟩ := ha.get hΔ hr
    rw [hty] at hyty
    obtain ⟨o, ho⟩ := Datum.order_typed hs hxty hyty
    refine Run.Safe.seq (P := fun d => d.Canonical .i1) ?_ fun d hd => Run.safe_pure ⟨hd, rfl⟩
    rw [Activation.compare_eq _ hx hy, ho]
    exact Run.safe_pure trivial
  | cast hv hop =>
    obtain ⟨d, hd, hdty⟩ := ha.get hΔ hv
    obtain ⟨d', hd', hty⟩ := Datum.convert_typed hop hdty
    refine Run.Safe.seq (P := fun d => d.Canonical ty) ?_ fun d hd => Run.safe_pure ⟨hd, rfl⟩
    rw [Activation.cast_eq _ _ hd, hd']
    exact Run.safe_pure hty
  | call hs hargs htys =>
    obtain ⟨ds, hds, hty⟩ := ha.getAll hΔ hargs
    rw [htys] at hty
    refine (Run.safe_ok hds hty).seq fun ds hty => ?_
    exact (hcall _ hs ds hty).seq fun d hd => Run.safe_pure ⟨hd, rfl⟩

theorem Operation.Typed.callee {name : String} {ty ty' : Ty} {args : List Value} {ds : List Datum}
    (h : (Operation.call name ty args).Typed (f.env sigs) Δ ty') (ha : a.Typed f cells)
    (hΔ : a.Knows cells Δ) (hds : a.getAll args = .ok ds) :
    ∃ sig ∈ sigs, sig.name = name ∧ List.Forall₂ Datum.Canonical sig.params ds := by
  cases h with
  | call hs hargs htys =>
    obtain ⟨ds', hds', hty⟩ := ha.getAll hΔ hargs
    obtain rfl : ds = ds' := Except.ok.inj (hds.symm.trans hds')
    exact ⟨_, hs, rfl, htys ▸ hty⟩

end Operations

/-! ## Steps -/

/-- Code that is ahead in a call of `f`: a typed flow in its place, with values for all that is
known, or such a flow behind the filling of storage that has just been reserved. -/
inductive Ready (f : Function) (sigs : List Signature) (cells : List Ty) (a : Activation) :
    List Instr → Option Terminator → Prop where
  | flow {Δ : Ctx} {g : Flow} {n : Nat} {e : Terminator} (h : f.Has (f.env sigs) Δ g n e)
      (hΔ : a.Knows cells Δ) : Ready f sigs cells a g.instrs (g.terminator n (some e))
  | fill {Δ : Ctx} {g : Flow} {n k i : Nat} {e : Terminator} {v : Value}
      (h : f.Has (f.env sigs) (Δ.bind k v.ty) g n e) (hΔ : a.Knows cells Δ)
      (hv : Operand (f.env sigs) Δ v) (hk : a.temps k = some (.ptr i))
      (hi : cells[i]? = some v.ty) :
      Ready f sigs cells a (⟨none, .store v (Flow.slot k v)⟩ :: g.instrs) (g.terminator n (some e))

section Steps

variable {f : Function} {functions : List String} {sigs : List Signature}
  {call : String → List Datum → Run (Option Datum)} {cells : List Ty} {Δ : Ctx} {a : Activation}

namespace Activation

theorem Typed.withTemp {k : Nat} {d : Datum} {ty : Ty} (h : a.Typed f cells) (hty : f.HasType k ty)
    (hd : d.Fits cells ty) : (a.withTemp k d).Typed f cells := by
  refine ⟨h.params, fun j x hj => ?_, h.memory⟩
  simp only [Activation.withTemp] at hj
  split at hj
  · cases hj
    subst j
    exact ⟨ty, hty, hd⟩
  · exact h.temps j x hj

theorem Typed.reserve {k : Nat} {ty : Ty} (h : a.Typed f cells) (hty : f.HasType k (.ptr ty)) :
    (a.reserve k).Typed f (cells ++ [ty]) := by
  have hmem : { a with memory := a.memory ++ [none] }.Typed f (cells ++ [ty]) := by
    refine ⟨h.params, fun j x hj => ?_, h.memory.push ty⟩
    obtain ⟨ty', hty', hx⟩ := h.temps j x hj
    exact ⟨ty', hty', hx.append [ty]⟩
  refine hmem.withTemp hty ?_
  simp [Datum.Fits, ← h.memory.size]

theorem Typed.fill {i : Nat} {d : Datum} {ty : Ty} (h : a.Typed f cells) (hi : cells[i]? = some ty)
    (hd : d.Canonical ty) : (a.fill i d).Typed f cells :=
  ⟨h.params, h.temps, h.memory.set hi hd⟩

theorem Knows.withTemp {k : Nat} (h : a.Knows cells Δ) (hk : Δ.Fresh k) (d : Datum) :
    (a.withTemp k d).Knows cells Δ := by
  constructor
  · intro t ht
    have hne : t.1 ≠ k := by
      rintro rfl
      exact hk _ (List.mem_append_left _ (List.mem_map_of_mem ht)) rfl
    simpa [Activation.withTemp, hne] using h.temps t ht
  · intro t ht
    have hne : t.1 ≠ k := by
      rintro rfl
      exact hk _ (List.mem_append_right _ (List.mem_map_of_mem ht)) rfl
    simpa [Activation.withTemp, hne] using h.slots t ht

theorem Knows.mono {Δ' : Ctx} (h : a.Knows cells Δ) (hsub : Δ' ⊆ Δ) : a.Knows cells Δ' :=
  ⟨fun t ht => h.temps t (hsub.1 ht), fun t ht => h.slots t (hsub.2 ht)⟩

theorem Knows.define {k : Nat} {d : Datum} {ty : Ty} (h : a.Knows cells Δ) (hk : Δ.Fresh k)
    (hd : d.Canonical ty) : (a.withTemp k d).Knows cells (Δ.define k ty) := by
  refine ⟨fun t ht => ?_, (h.withTemp hk d).slots⟩
  rcases List.mem_cons.mp ht with rfl | ht
  · exact ⟨d, by simp [Activation.withTemp], hd⟩
  · exact (h.withTemp hk d).temps t ht

theorem Knows.reserve {k : Nat} (h : a.Knows cells Δ) (hk : Δ.Fresh k) (ty : Ty) :
    (a.reserve k).Knows (cells ++ [ty]) Δ := by
  have hmem : { a with memory := a.memory ++ [none] }.Knows (cells ++ [ty]) Δ := by
    refine ⟨h.temps, fun t ht => ?_⟩
    obtain ⟨i, d, htemp, hi, hd⟩ := h.slots t ht
    refine ⟨i, d, htemp, ?_, ?_⟩
    · exact (List.getElem?_append_left (List.getElem?_eq_some_iff.mp hi).1).trans hi
    · exact (List.getElem?_append_left (List.getElem?_eq_some_iff.mp hd).1).trans hd
  exact hmem.withTemp hk _

/-- Filling storage makes the pointer to it known. -/
theorem Knows.fill {k i : Nat} {d : Datum} {ty : Ty} (h : a.Knows cells Δ)
    (hk : a.temps k = some (.ptr i)) (hi : cells[i]? = some ty) (hlt : i < a.memory.length) :
    (a.fill i d).Knows cells (Δ.bind k ty) := by
  refine ⟨h.temps, fun t ht => ?_⟩
  rcases List.mem_cons.mp ht with rfl | ht
  · exact ⟨i, d, hk, hi, by simp [Activation.fill, hlt]⟩
  · obtain ⟨j, x, htemp, hj, hx⟩ := h.slots t ht
    by_cases hij : i = j
    · subst hij
      exact ⟨i, d, htemp, hj, by simp [Activation.fill, hlt]⟩
    · exact ⟨j, x, htemp, hj, by simp [Activation.fill, hij, hx]⟩

end Activation

/-- An instruction gives its temporary the only type that this has. -/
theorem Function.hasType_of_mem {b : Block} {i : Instr} {k : Nat} {ty : Ty}
    (hdefined : f.defined.Nodup) (hb : b ∈ f.blocks) (hi : i ∈ b.instrs)
    (hres : i.result = some ⟨.temp k, ty⟩) : f.HasType k ty := by
  have hvalues : (((f.blocks.flatMap (·.instrs)).filterMap (·.result)).map (·.kind)).Nodup := by
    rw [List.map_filterMap]
    exact hdefined
  have hmem : ∀ {b i v}, b ∈ f.blocks → i ∈ b.instrs → i.result = some v →
      v ∈ (f.blocks.flatMap (·.instrs)).filterMap (·.result) := fun hb hi hres =>
    List.mem_filterMap.mpr ⟨_, List.mem_flatMap.mpr ⟨_, hb, hi⟩, hres⟩
  intro ty'
  constructor
  · rintro ⟨b', hb', i', hi', hres'⟩
    have := List.inj_on_of_nodup_map hvalues (hmem hb' hi' hres') (hmem hb hi hres) rfl
    exact congrArg Value.ty this
  · rintro rfl
    exact ⟨b, hb, i, hi, hres⟩

namespace Ready

/-- A frame after an instruction: it has typed code ahead again. -/
def After (f : Function) (sigs : List Signature) (is : List Instr) (t : Option Terminator)
    (a : Activation) : Prop :=
  ∃ cells, Ready f sigs cells a is t ∧ a.Typed f cells

variable {n k i : Nat} {e : Terminator} {v : Value} {g : Flow}

theorem define {op : Operation} {ty : Ty} (ha : a.Typed f cells) (hΔ : a.Knows cells Δ)
    (hop : op.Typed (f.env sigs) Δ ty) (hs : ty.isScalar = true) (hk : Δ.Fresh k)
    (hty : f.HasType k ty) (h : f.Has (f.env sigs) (Δ.define k ty) g n e)
    (hcall : SafeCalls functions sigs call) :
    (runInstrs call a [⟨some ⟨.temp k, ty⟩, op⟩]).Safe functions
      (After f sigs g.instrs (g.terminator n (some e))) := by
  refine (hop.safe ha hΔ hcall).seq ?_
  rintro ⟨_, _⟩ ⟨hd, rfl⟩
  obtain ⟨d, rfl, hd⟩ := hd.scalar hs
  refine Run.safe_pure ⟨cells, .flow h (hΔ.define hk hd), ?_⟩
  exact ha.withTemp hty (hd.fits cells)

theorem perform {op : Operation} {ty : Ty} (ha : a.Typed f cells) (hΔ : a.Knows cells Δ)
    (hop : op.Typed (f.env sigs) Δ ty) (hvoid : ty.isVoid = true)
    (h : f.Has (f.env sigs) Δ g n e) (hcall : SafeCalls functions sigs call) :
    (runInstrs call a [⟨none, op⟩]).Safe functions
      (After f sigs g.instrs (g.terminator n (some e))) := by
  refine (hop.safe ha hΔ hcall).seq ?_
  rintro ⟨_, _⟩ ⟨hd, rfl⟩
  obtain rfl := hd.void hvoid
  exact Run.safe_pure ⟨cells, .flow h hΔ, ha⟩

theorem reserve (ha : a.Typed f cells) (hΔ : a.Knows cells Δ) (hv : Operand (f.env sigs) Δ v)
    (hk : Δ.Fresh k) (hty : f.HasType k (.ptr v.ty))
    (h : f.Has (f.env sigs) (Δ.bind k v.ty) g n e) :
    (runInstrs call a [⟨some (Flow.slot k v), .alloca v.ty⟩]).Safe functions
      (After f sigs (⟨none, .store v (Flow.slot k v)⟩ :: g.instrs) (g.terminator n (some e))) := by
  refine Run.safe_pure ⟨cells ++ [v.ty], ?_, ha.reserve hty⟩
  refine .fill h (hΔ.reserve hk v.ty) hv (i := a.memory.length) ?_ ?_
  · simp [Activation.set, Flow.slot]
  · simp [← ha.memory.size]

theorem store (ha : a.Typed f cells) (hΔ : a.Knows cells Δ) (hv : Operand (f.env sigs) Δ v)
    (hk : a.temps k = some (.ptr i)) (hi : cells[i]? = some v.ty)
    (h : f.Has (f.env sigs) (Δ.bind k v.ty) g n e) :
    (runInstrs call a [⟨none, .store v (Flow.slot k v)⟩]).Safe functions
      (After f sigs g.instrs (g.terminator n (some e))) := by
  obtain ⟨d, hd, hdty⟩ := ha.get hΔ hv
  have hlt : i < a.memory.length := ha.memory.size ▸ (List.getElem?_eq_some_iff.mp hi).1
  have hptr : a.get (Flow.slot k v) = .ok (.ptr i) := by simp [Activation.get, Flow.slot, hk]
  have hstore : (Operation.run call a (.store v (Flow.slot k v))).Safe functions
      (· = (none, a.fill i d)) := by
    refine Run.Safe.seq (Run.safe_ok (Activation.store_eq hd hptr hlt) rfl) ?_
    rintro _ rfl
    exact Run.safe_pure rfl
  refine hstore.seq ?_
  rintro _ rfl
  exact Run.safe_pure ⟨cells, .flow h (hΔ.fill hk hi hlt), ha.fill hi hdty⟩

/-- What one instruction does. -/
theorem instr {b : Block} {i : Instr} {is : List Instr} {t : Option Terminator}
    (h : Ready f sigs cells a (i :: is) t) (ha : a.Typed f cells) (hdefined : f.defined.Nodup)
    (hb : b ∈ f.blocks) (hi : i ∈ b.instrs) (hcall : SafeCalls functions sigs call) :
    (runInstrs call a [i]).Safe functions (After f sigs is t) := by
  generalize hs : i :: is = l at h
  cases h with
  | @flow Δ g n e h hΔ =>
    cases g with
    | fall | ret | when | either => cases hs
    | emit j rest =>
      cases hs
      obtain ⟨result, op⟩ := i
      obtain ⟨k, ty, hres, hk, hs, hop, hrest⟩ | ⟨ty, hres, hvoid, hop, hrest⟩ := h.emit
      · have hty := f.hasType_of_mem hdefined hb hi hres
        obtain rfl := hres
        exact define ha hΔ hop hs hk hty hrest hcall
      · obtain rfl := hres
        exact perform ha hΔ hop hvoid hrest hcall
    | bind k v rest =>
      cases hs
      obtain ⟨hk, hv, -, hrest⟩ := h.bind
      exact reserve ha hΔ hv hk (f.hasType_of_mem hdefined hb hi rfl) hrest
  | fill h hΔ hv hk hcell =>
    cases hs
    exact store ha hΔ hv hk hcell h

/-- A call that stands ahead is one of a function that there is, with arguments of its types. -/
theorem callee {i : Instr} {is : List Instr} {t : Option Terminator} {name : String} {ty : Ty}
    {args : List Value} {ds : List Datum} (h : Ready f sigs cells a (i :: is) t)
    (ha : a.Typed f cells) (hop : i.op = .call name ty args) (hds : a.getAll args = .ok ds) :
    ∃ sig ∈ sigs, sig.name = name ∧ List.Forall₂ Datum.Canonical sig.params ds := by
  generalize hs : i :: is = l at h
  cases h with
  | @flow Δ g n e h hΔ =>
    cases g with
    | fall | ret | when | either => cases hs
    | emit j rest =>
      cases hs
      obtain ⟨_, ty', -, -, -, htyped, -⟩ | ⟨ty', -, -, htyped, -⟩ := h.emit
      · exact Operation.Typed.callee (hop ▸ htyped) ha hΔ hds
      · exact Operation.Typed.callee (hop ▸ htyped) ha hΔ hds
    | bind k v rest =>
      cases hs
      cases hop
  | fill h hΔ hv hk hcell =>
    cases hs
    cases hop

/-- What a terminator does: the call ends with a value that `f` may return, or it goes on in a block
with typed code ahead. -/
def Leaves (f : Function) (sigs : List Signature) (cells : List Ty) (a : Activation) : Exit → Prop
  | .returned d => Datum.Returned f.ret d
  | .jump l => ∃ b, f.blockOf? l = some b ∧ Ready f sigs cells a b.instrs b.terminator

theorem leaves_startsAt {base : String} (hlabels : f.Labelled)
    (h : f.StartsAt (f.env sigs) Δ base i g n e) (hΔ : a.Knows cells Δ) :
    Leaves f sigs cells a (.jump (blockLabel base i)) :=
  ⟨_, hlabels.blockOf? h.1, .flow h.2 hΔ⟩

/-- Where the end of a flow leads to. -/
theorem exit (h : f.Leads (f.env sigs) Δ e) (hΔ : a.Knows cells Δ) (hlabels : f.Labelled)
    (hname : f.name ∈ functions) :
    (Run.ofExcept (e.run f.name a)).Safe functions (Leaves f sigs cells a) := by
  cases h with
  | ending =>
    cases hret : f.ret.isVoid with
    | true =>
      simp only [Function.ending, Function.env, hret, if_true]
      exact Run.safe_pure hret
    | false =>
      simp only [Function.ending, Function.env, hret, Bool.false_eq_true, if_false]
      exact Run.safe_error rfl (.unreachable hname)
  | next hsub hblock hblocks htyped hexit =>
    have hstart : f.StartsAt (f.env sigs) _ _ _ _ _ _ := ⟨hblock, hblocks, htyped, hexit⟩
    exact Run.safe_pure (leaves_startsAt hlabels hstart (hΔ.mono hsub))

/-- A branch on a truth value. -/
theorem branch {yes no : String} (ha : a.Typed f cells) (hΔ : a.Knows cells Δ)
    (hv : Operand (f.env sigs) Δ v) (hty : v.ty = .i1) (hyes : Leaves f sigs cells a (.jump yes))
    (hno : Leaves f sigs cells a (.jump no)) :
    (Run.ofExcept ((Terminator.brIf v yes no).run f.name a)).Safe functions
      (Leaves f sigs cells a) := by
  obtain ⟨d, hd, hdty⟩ := ha.get hΔ hv
  obtain ⟨c, rfl⟩ := Datum.canonical_bool (hty ▸ hdty)
  simp only [Terminator.run, hd]
  cases c with
  | true => exact Run.safe_pure hyes
  | false => exact Run.safe_pure hno

/-- What one terminator does. -/
theorem terminator {t : Option Terminator} (h : Ready f sigs cells a [] t) (ha : a.Typed f cells)
    (hlabels : f.Labelled) (hname : f.name ∈ functions) :
    ∃ t', t = some t' ∧
      (Run.ofExcept (t'.run f.name a)).Safe functions (Leaves f sigs cells a) := by
  generalize hs : [] = l at h
  cases h with
  | fill => cases hs
  | @flow Δ g n e h hΔ =>
    cases g with
    | emit | bind => cases hs
    | fall => exact ⟨e, rfl, exit h.exit hΔ hlabels hname⟩
    | ret value =>
      refine ⟨.ret value, rfl, ?_⟩
      obtain ⟨_, _, -, htyped⟩ := h.typed
      cases htyped with
      | retNothing hret => exact Run.safe_pure hret
      | ret hv hty =>
        obtain ⟨d, hd, hdty⟩ := ha.get hΔ hv
        rw [hty] at hdty
        simp only [Terminator.run, hd]
        exact Run.safe_pure hdty
    | when cond yes rest =>
      obtain ⟨hc, hty, hyes, hrest⟩ := h.when
      exact ⟨_, rfl, branch ha hΔ hc hty (leaves_startsAt hlabels hyes hΔ)
        (leaves_startsAt hlabels hrest hΔ)⟩
    | either cond yes base no rest =>
      obtain ⟨hc, hty, hyes, hno, -⟩ := h.either
      exact ⟨_, rfl, branch ha hΔ hc hty (leaves_startsAt hlabels hyes hΔ)
        (leaves_startsAt hlabels hno hΔ)⟩

end Ready

end Steps

end ProcLang.IR

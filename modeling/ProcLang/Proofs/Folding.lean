import ProcLang.Proofs.IR.Change
import ProcLang.Proofs.Lowering.Progress
import ProcLang.Proofs.Lowering.Values

/-!
# Conversions of constants

A constant is converted when the code is built; a value that is only known at run time is converted
by an instruction. Both come to the same, whatever the constant is: an integer need not be in the
range of its type, and a float need not be rounded to it, be finite or be a number.

## Main definitions

* `Literal.types` — the types that a literal is a constant of.
* `Operation.Converts` — the operations that convert a value that is no constant.

## Main statements

* `Operation.Converts.run_eq` — running a conversion gives what the constant would be converted to.
* `Value.fold_eq_run` — constants are converted to what their conversion at run time gives.
-/
namespace ProcLang

/-- The types that a literal is a constant of. -/
def Literal.types : Literal → List IR.Ty
  | .int _ => [.i32, .i64]
  | .float _ => [.float, .double]
  | .bool _ => [.i1]

namespace Literal

variable {c : Literal} {ty : IR.Ty}

theorem exists_int (h : ty.isInt = true) (hc : ty ∈ c.types) : ∃ v, c = .int v := by
  cases ty <;> cases h <;> cases c <;> simp [types] at hc ⊢

theorem exists_float (h : ty.isFloat = true) (hc : ty ∈ c.types) : ∃ x, c = .float x := by
  cases ty <;> cases h <;> cases c <;> simp [types] at hc ⊢

theorem exists_bool (hc : .i1 ∈ c.types) : ∃ b, c = .bool b := by
  cases c <;> simp [types] at hc ⊢

theorem isScalar_of_mem_types (hc : ty ∈ c.types) : ty.isScalar = true := by
  cases c <;> cases ty <;> simp [types, IR.Ty.isScalar] at hc ⊢

end Literal

namespace IR

/-! ## When the code is built -/

namespace Value

variable {c : Literal} {source ty : Ty}

theorem fold_bool : fold ⟨.const c, source⟩ .i1 = some (bool (truth c)) := rfl

theorem fold_int (h : ty.isInt = true) :
    fold ⟨.const c, source⟩ ty = some (int (ty.narrowInt (toInt c)) ty) := by
  cases ty <;> first | rfl | cases h

theorem fold_float (h : ty.isFloat = true) :
    fold ⟨.const c, source⟩ ty = some (float (ty.narrowFloat (toDouble c)) ty) := by
  cases ty <;> first | rfl | cases h

theorem exists_fold (c : Literal) (source : Ty) (h : ty.isScalar = true) :
    ∃ c', fold ⟨.const c, source⟩ ty = some ⟨.const c', ty⟩ ∧ ty ∈ c'.types := by
  cases ty with
  | i1 => exact ⟨_, fold_bool, by simp [Literal.types]⟩
  | i32 | i64 => exact ⟨_, fold_int rfl, by simp [Literal.types]⟩
  | float | double => exact ⟨_, fold_float rfl, by simp [Literal.types]⟩
  | void | ptr => cases h

theorem fold_eq_none_iff {v : Value} :
    v.fold ty = none ↔ (∀ c, v.kind ≠ .const c) ∨ ty = .void ∨ ∃ t, ty = .ptr t := by
  obtain ⟨kind, source⟩ := v
  cases kind with
  | temp | param => simp [fold]
  | const c => cases ty <;> simp [fold, Ty.isBool, Ty.isInt, Ty.isFloat]

end Value

/-! ## At run time -/

/-- The operation converts the value `v` to another type. What is asked for the truth of a number is
whether it differs from zero. -/
inductive Operation.Converts (v : Value) : Ty → Operation → Prop where
  | int (h : v.ty.isInt = true) : Converts v .i1 (.compare .ne v (.int 0 v.ty))
  | float (h : v.ty.isFloat = true) : Converts v .i1 (.compare .ne v (.float .zero v.ty))
  | cast {op : Conversion} {ty : Ty} (h : op.Suits v.ty ty) : Converts v ty (.cast op v ty)

/-- A conversion applied to what a constant is at run time. -/
theorem Datum.convert_ofLiteral {op : Conversion} {c : Literal} {source ty : Ty} {w : Value}
    (a : Activation) (hop : op.Suits source ty) (hc : source ∈ c.types)
    (hw : Value.fold ⟨.const c, source⟩ ty = some w) :
    (Datum.convert op (.ofLiteral c)).map (·.narrow ty) = a.get w := by
  cases op with
  | sext | trunc =>
    obtain ⟨h, h', -⟩ := hop
    obtain ⟨v, rfl⟩ := Literal.exists_int h hc
    cases (Value.fold_int h').symm.trans hw
    rfl
  | fpext | fptrunc =>
    obtain ⟨h, h', -⟩ := hop
    obtain ⟨x, rfl⟩ := Literal.exists_float h hc
    cases (Value.fold_float h').symm.trans hw
    rfl
  | zext =>
    obtain ⟨rfl, h', -⟩ := hop
    obtain ⟨b, rfl⟩ := Literal.exists_bool hc
    cases (Value.fold_int h').symm.trans hw
    rfl
  | uitofp =>
    obtain ⟨rfl, h'⟩ := hop
    obtain ⟨b, rfl⟩ := Literal.exists_bool hc
    cases (Value.fold_float h').symm.trans hw
    rfl
  | sitofp =>
    obtain ⟨h, h'⟩ := hop
    obtain ⟨v, rfl⟩ := Literal.exists_int h hc
    cases (Value.fold_float h').symm.trans hw
    rfl
  | fptosi =>
    obtain ⟨h, h'⟩ := hop
    obtain ⟨x, rfl⟩ := Literal.exists_float h hc
    cases (Value.fold_int h').symm.trans hw
    rfl

theorem Operation.Converts.run_eq {v w : Value} {ty : Ty} {op : Operation} {c : Literal}
    {a : Activation} (h : op.Converts v ty) (hc : v.ty ∈ c.types)
    (hw : Value.fold ⟨.const c, v.ty⟩ ty = some w) (hv : a.get v = .ok (.ofLiteral c))
    (call : String → List Datum → Run (Option Datum)) :
    op.run call a = Run.ofExcept ((a.get w).map fun d => (some d, a)) := by
  cases h with
  | int h =>
    obtain ⟨x, rfl⟩ := Literal.exists_int h hc
    cases hw
    have hcmp : a.compare .ne v (.int 0 v.ty) = .ok (.bool (x != 0)) := by
      rw [Activation.compare_eq .ne hv rfl, ← holds_ne_int]
      rfl
    simp only [Operation.run, hcmp]
    rfl
  | float h =>
    obtain ⟨x, rfl⟩ := Literal.exists_float h hc
    cases hw
    -- A float that is not a number is not ordered with zero, and so differs from it.
    have hcmp : a.compare .ne v (.float .zero v.ty) = .ok (.bool (!x.isZero)) := by
      rw [Activation.compare_eq .ne hv rfl, ← Double.holds_ne_zero]
      rfl
    simp only [Operation.run, hcmp]
    rfl
  | cast hop =>
    simp only [Operation.run, Activation.cast_eq _ _ hv, Datum.convert_ofLiteral a hop hc hw]
    cases a.get w <;> rfl

/-- A value that is no constant is converted by one operation. -/
theorem Function.exists_converts {f : Function} {b : Nat} (hf : f.Open b) {v : Value} {ty : Ty}
    (hv : ∀ c, v.kind ≠ .const c) (hs : v.ty.isScalar = true) (hty : ty.isScalar = true)
    (hne : v.ty ≠ ty) :
    ∃ op, op.Converts v ty ∧ f.cast b v ty =
      .ok (⟨.temp f.temps, ty⟩, f.emit b [⟨some ⟨.temp f.temps, ty⟩, op⟩]) := by
  obtain ⟨⟨w, f'⟩, h⟩ := exists_cast hf hs hty
  rw [h]
  obtain ⟨heq, -⟩ | ⟨-, hfold, -⟩ | ⟨-, -, ⟨zero, rfl, hz, h⟩ | ⟨op, hop, h⟩⟩ := cast_ok h
  · exact absurd heq hne
  · rw [Value.fold_eq_none_iff.mpr (.inl hv)] at hfold
    cases hfold
  · obtain ⟨-, rfl, rfl⟩ := define_eq_ok.mp (compare_ok h).2.2
    refine ⟨_, ?_, rfl⟩
    unfold zero? at hz
    split at hz
    next hint =>
      cases hz
      exact .int hint
    next =>
      obtain ⟨hfloat, hz⟩ := Option.ite_none_right_eq_some.mp hz
      cases hz
      exact .float hfloat
  · obtain ⟨-, rfl, rfl⟩ := define_eq_ok.mp h
    exact ⟨_, .cast (Conversion.suits_of_between hne hop), rfl⟩

/-- A constant is converted to every other type of values, and to what running the conversion of a
value of its type gives if the value is that constant. Nothing else is converted when the code is
built. -/
theorem Value.fold_eq_run :
    (∀ (c : Literal) (source ty : Ty), source ∈ c.types → ty.isScalar = true → source ≠ ty →
      ∃ c', fold ⟨.const c, source⟩ ty = some ⟨.const c', ty⟩ ∧ ty ∈ c'.types ∧
        ∀ (f : Function) (b : Nat) (v : Value), f.Open b → (∀ k, v.kind ≠ .const k) →
          v.ty = source →
          ∃ op, op.Converts v ty ∧ f.cast b v ty =
              .ok (⟨.temp f.temps, ty⟩, f.emit b [⟨some ⟨.temp f.temps, ty⟩, op⟩]) ∧
            ∀ (call : String → List Datum → Run (Option Datum)) (a : Activation),
              a.get v = .ok (.ofLiteral c) →
              ∃ d, a.get ⟨.const c', ty⟩ = .ok d ∧ op.run call a = pure (some d, a)) ∧
    ∀ (v : Value) (ty : Ty),
      v.fold ty = none ↔ (∀ c, v.kind ≠ .const c) ∨ ty = .void ∨ ∃ t, ty = .ptr t := by
  refine ⟨?_, fun v ty => fold_eq_none_iff⟩
  intro c source ty hc hty hne
  obtain ⟨c', hfold, hc'⟩ := exists_fold c source hty
  refine ⟨c', hfold, hc', ?_⟩
  rintro f b v hf hv rfl
  obtain ⟨op, hop, hcast⟩ :=
    Function.exists_converts hf hv (Literal.isScalar_of_mem_types hc) hty hne
  refine ⟨op, hop, hcast, ?_⟩
  intro call a ha
  exact ⟨.ofLiteral c', rfl, hop.run_eq hc hfold ha call⟩

/-- A frame with an argument that is not a number. -/
def Activation.nanSample : Activation := ⟨[("x", .float ⟨0x7ff8000000000000⟩)], fun _ => none, []⟩

/-- A value that is not a number counts as true, whether it is a constant or an argument. -/
theorem Value.fold_eq_run_nan :
    ∃ op, op.Converts ⟨.param "x", .double⟩ .i1 ∧
      ((Function.empty "f" .void).extend "entry").cast 0 ⟨.param "x", .double⟩ .i1 =
        .ok (⟨.temp 0, .i1⟩, ((Function.empty "f" .void).extend "entry").emit 0
          [⟨some ⟨.temp 0, .i1⟩, op⟩]) ∧
      op.run (fun _ _ => Run.outOfFuel) .nanSample = pure (some (.bool true), .nanSample) := by
  have htruth : truth (.float ⟨0x7ff8000000000000⟩) = true := by decide +kernel
  obtain ⟨c', hfold, -, h⟩ := fold_eq_run.1 (.float ⟨0x7ff8000000000000⟩) .double .i1
    (by decide) rfl (by decide)
  obtain ⟨op, hop, hcast, hrun⟩ := h ((Function.empty "f" .void).extend "entry") 0
    ⟨.param "x", .double⟩ ⟨_, rfl, rfl⟩ (by simp) rfl
  obtain ⟨d, hd, hrun⟩ := hrun (fun _ _ => Run.outOfFuel) .nanSample rfl
  rw [fold_bool, htruth] at hfold
  cases hfold
  cases hd
  exact ⟨op, hop, hcast, hrun⟩

end IR
end ProcLang

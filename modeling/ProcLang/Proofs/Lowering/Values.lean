import ProcLang.Proofs.IR.Run
import ProcLang.Proofs.IR.Typing
import ProcLang.Proofs.Lowering.Emission
import ProcLang.Proofs.Source.Eval

/-!
# Values of programs at run time

At run time a value of a program is kept as a `Datum`, which does not know its type: an integer of
32 bits is kept in 64 bits, and a float of single precision in double precision. Conversions and
operators on values are done right on what stands for them.

## Main definitions

* `Val.datum` — what a value is kept as.
* `Failure.Means`, `Agree`, `Matches` — failures, outcomes and computations that stand for each
  other.

## Main statements

* `Val.convert_datum`, `Val.order_zero`, `Val.fold_datum` — the three ways to convert a value.
* `Operator.matches_operation` — operators.
-/
namespace ProcLang

open IR (Datum Fault Run Value)

/-! ## Outcomes -/

/-- The fault that a failure shows as. -/
inductive Failure.Means : Failure → Fault → Prop where
  | divideByZero : Means .divideByZero .divideByZero
  | divideOverflow : Means .divideOverflow .divideOverflow
  | unreachable (name : String) : Means (.unreachable name) (.unreachable name)

/-- Two outcomes that stand for each other: related values, or a failure and its fault. -/
inductive Agree {α β : Type} (P : α → β → Prop) : Except Failure α → Except Fault β → Prop where
  | ok {a : α} {b : β} (h : P a b) : Agree P (.ok a) (.ok b)
  | error {e : Failure} {e' : Fault} (h : e.Means e') : Agree P (.error e) (.error e')

theorem Agree.map {α β γ δ : Type} {P : α → β → Prop} {Q : γ → δ → Prop} {o : Except Failure α}
    {r : Except Fault β} (h : Agree P o r) (f : α → γ) (g : β → δ)
    (hfg : ∀ a b, P a b → Q (f a) (g b)) : Agree Q (o.map f) (r.map g) := by
  cases h with
  | ok h => exact .ok (hfg _ _ h)
  | error h => exact .error h

/-- Two computations that stand for each other: neither has an outcome, or their outcomes agree. -/
def Matches {α β : Type} (P : α → β → Prop) (x : Eval α) (y : Run β) : Prop :=
  Option.Rel (Agree P) x.run y.run

namespace Matches

variable {α β γ δ : Type} {P : α → β → Prop} {Q : γ → δ → Prop}

theorem pure {a : α} {b : β} (h : P a b) : Matches P (pure a) (pure b) := .some (.ok h)

theorem throw {e : Failure} {e' : Fault} (h : e.Means e') :
    Matches P (throw e : Eval α) (throw e' : Run β) :=
  .some (.error h)

theorem ofExcept {x : Except Failure α} {y : Except Fault β} (h : Agree P x y) :
    Matches P (Eval.ofExcept x) (Run.ofExcept y) :=
  .some h

theorem seq {x : Eval α} {y : Run β} {k : α → Eval γ} {k' : β → Run δ} (h : Matches P x y)
    (hk : ∀ a b, P a b → Matches Q (k a) (k' b)) : Matches Q (x >>= k) (y >>= k') := by
  unfold Matches at h
  change Option.Rel _ (x.run >>= ExceptT.bindCont k) (y.run >>= ExceptT.bindCont k')
  cases h with
  | none => exact .none
  | some h =>
    cases h with
    | ok h => exact hk _ _ h
    | error h => exact .some (.error h)

theorem mono {P' : α → β → Prop} {x : Eval α} {y : Run β} (h : Matches P x y)
    (hP : ∀ a b, P a b → P' a b) : Matches P' x y := by
  unfold Matches at h ⊢
  cases h with
  | none => exact .none
  | some h =>
    cases h with
    | ok h => exact .some (.ok (hP _ _ h))
    | error h => exact .some (.error h)

theorem map {Q : α → δ → Prop} {x : Eval α} {y : Run β} (h : Matches P x y) (f : β → δ)
    (hf : ∀ a b, P a b → Q a (f b)) : Matches Q x (y >>= fun b => Pure.pure (f b)) := by
  rw [← bind_pure x]
  exact h.seq fun a b hab => pure (hf a b hab)

theorem exists_right {x : Eval α} {y : Run β} (h : Matches P x y) {o : Except Failure α}
    (ho : x.run = some o) : ∃ r, y.run = some r ∧ Agree P o r := by
  rw [Matches, ho] at h
  generalize hy : y.run = r at h
  cases h with
  | some h => exact ⟨_, rfl, h⟩

theorem exists_left {x : Eval α} {y : Run β} (h : Matches P x y) {r : Except Fault β}
    (hr : y.run = some r) : ∃ o, x.run = some o ∧ Agree P o r := by
  rw [Matches, hr] at h
  generalize hx : x.run = o at h
  cases h with
  | some h => exact ⟨_, rfl, h⟩

end Matches

/-! ## Zero -/

theorem toInt64_eq_zero {v : Int32} : v.toInt64 = 0 ↔ v = 0 := by
  constructor
  · intro h
    rw [← Int32.toInt32_toInt64 v, h]
    rfl
  · rintro rfl
    rfl

theorem bne_zero_toInt64 (v : Int32) : (v.toInt64 != 0) = (v != 0) := by
  rw [Bool.eq_iff_iff]
  simp [toInt64_eq_zero]

theorem holds_ne_int (l r : Int64) :
    Datum.holds .ne (some (if l < r then .lt else if r < l then .gt else .eq)) = (l != r) := by
  by_cases hlt : l < r
  · have hne : l ≠ r := Int64.ne_of_lt hlt
    simp [Datum.holds, hlt, hne, bne]
  · by_cases hgt : r < l
    · have hne : l ≠ r := (Int64.ne_of_lt hgt).symm
      simp [Datum.holds, hlt, hgt, hne, bne]
    · obtain rfl : l = r := Int64.le_antisymm (Int64.not_lt.mp hgt) (Int64.not_lt.mp hlt)
      simp [Datum.holds]

theorem Double.isZero_of_isNaN {x : Double} (h : x.isNaN = true) : x.isZero = false := by
  simp only [isNaN, Bool.and_eq_true, beq_iff_eq] at h
  have hsig : 0 < x.significand := by
    rw [significand, if_neg (by omega)]
    have := twoPow_pos 52
    omega
  have hsteps : 0 < x.steps := Nat.mul_pos hsig (twoPow_pos _)
  simp only [isZero, beq_eq_false_iff_ne]
  omega

theorem Double.holds_ne_zero (x : Double) : Datum.holds .ne (x.order? .zero) = !x.isZero := by
  have hnan : Double.zero.isNaN = false := by decide +kernel
  have hsteps : Double.zero.signedSteps = 0 := by decide +kernel
  simp only [order?, hnan, hsteps, Bool.or_false]
  cases hx : x.isNaN with
  | true => simp [isZero_of_isNaN hx, Datum.holds]
  | false =>
    have hzero : x.signedSteps = 0 ↔ x.steps = 0 := by
      unfold signedSteps
      split <;> omega
    rw [Bool.eq_iff_iff]
    simp [Datum.holds, isZero, hzero]

/-! ## Values -/

namespace Ty

theorem lower_injective {ty ty' : Ty} (h : ty.lower = ty'.lower) : ty = ty' := by
  cases ty <;> cases ty' <;> first | rfl | cases h

end Ty

namespace Val

/-- What a value is kept as. -/
def datum : Val → Datum
  | .i32 v => .int v.toInt64
  | .i64 v => .int v
  | .f32 x => .float x.val
  | .f64 x => .float x
  | .bool b => .bool b

/-- Values of one type are kept apart. -/
theorem datum_injective {x y : Val} (hty : x.ty = y.ty) (h : x.datum = y.datum) : x = y := by
  cases x <;> cases y <;> cases hty
  case i32 v w =>
    have heq : v.toInt64 = w.toInt64 := Datum.int.inj h
    rw [← Int32.toInt32_toInt64 v, heq, Int32.toInt32_toInt64]
  case f32 x y => exact congrArg Val.f32 (Subtype.ext (Datum.float.inj h))
  case i64 | f64 | bool =>
    cases h
    rfl

/-- What is of a type is what stands for the values of it. -/
theorem canonical_iff {ty : Ty} {d : Datum} :
    d.Canonical ty.lower ↔ ∃ v : Val, v.ty = ty ∧ v.datum = d := by
  constructor
  · intro h
    cases ty with
    | i32 =>
      cases d with
      | int w =>
        refine ⟨.i32 w.toInt32, rfl, congrArg Datum.int (Int64.toInt.inj ?_)⟩
        rw [Int32.toInt_toInt64, Int64.toInt_toInt32]
        exact Int.bmod_eq_of_le h.1 (Int.lt_of_le_of_lt h.2 (by decide))
      | float | bool | ptr => cases h
    | i64 =>
      cases d with
      | int w => exact ⟨.i64 w, rfl, rfl⟩
      | float | bool | ptr => cases h
    | f32 =>
      cases d with
      | float x => exact ⟨.f32 ⟨x, h⟩, rfl, rfl⟩
      | int | bool | ptr => cases h
    | f64 =>
      cases d with
      | float x => exact ⟨.f64 x, rfl, rfl⟩
      | int | bool | ptr => cases h
    | bool =>
      cases d with
      | bool b => exact ⟨.bool b, rfl, rfl⟩
      | int | float | ptr => cases h
  · rintro ⟨v, rfl, rfl⟩
    cases v with
    | i32 v =>
      change Int32.minValue.toInt ≤ v.toInt64.toInt ∧ v.toInt64.toInt ≤ Int32.maxValue.toInt
      rw [Int32.toInt_toInt64]
      exact ⟨Int32.minValue_le_toInt v, Int32.toInt_le v⟩
    | f32 x => exact x.property
    | i64 | f64 | bool => trivial

@[simp] theorem ty_convert (v : Val) (ty : Ty) : (v.convert ty).ty = ty := by
  cases ty <;> rfl

@[simp] theorem convert_ty (v : Val) : v.convert v.ty = v := by
  cases v with
  | i32 v => exact congrArg Val.i32 (Int32.toInt32_toInt64 v)
  | f32 x => exact congrArg Val.f32 (Subtype.ext x.property)
  | i64 | f64 | bool => rfl

/-! ## Conversions -/

section Conversions

variable {v : Val} {ty : Ty}

theorem datum_of_int (h : v.ty.lower.isInt = true) :
    v.datum = .int v.toInt64 ∧ v.toDouble = .ofInt v.toInt64.toInt := by
  cases v with
  | i32 v => exact ⟨rfl, by simp [toDouble, toInt64]⟩
  | i64 => exact ⟨rfl, rfl⟩
  | f32 | f64 | bool => cases h

theorem datum_of_float (h : v.ty.lower.isFloat = true) :
    v.datum = .float v.toDouble ∧ v.toInt64 = v.toDouble.toInt64 := by
  cases v with
  | f32 | f64 => exact ⟨rfl, rfl⟩
  | i32 | i64 | bool => cases h

theorem exists_bool (h : v.ty.lower = .i1) : ∃ b, v = .bool b := by
  cases v with
  | bool b => exact ⟨b, rfl⟩
  | i32 | i64 | f32 | f64 => cases h

theorem datum_convert_int (v : Val) (h : ty.lower.isInt = true) :
    (v.convert ty).datum = .int (ty.lower.narrowInt v.toInt64) := by
  cases ty <;> first | rfl | cases h

theorem datum_convert_float (v : Val) (h : ty.lower.isFloat = true) :
    (v.convert ty).datum = .float (ty.lower.narrowFloat v.toDouble) := by
  cases ty <;> first | rfl | cases h

/-- A conversion by an instruction. -/
theorem convert_datum {op : IR.Conversion}
    (hop : IR.Conversion.between? v.ty.lower ty.lower = some op) :
    (Datum.convert op v.datum).map (·.narrow ty.lower) = .ok (v.convert ty).datum := by
  generalize hs : v.ty.lower = source at hop
  cases IR.Conversion.between_of_eq_some hop with
  | zext h' =>
    obtain ⟨b, rfl⟩ := exists_bool hs
    rw [datum_convert_int _ h']
    rfl
  | sext h h' | trunc h h' =>
    rw [datum_convert_int _ h', (datum_of_int (hs ▸ h)).1]
    rfl
  | fpext h h' | fptrunc h h' =>
    rw [datum_convert_float _ h', (datum_of_float (hs ▸ h)).1]
    rfl
  | sitofp h h' =>
    obtain ⟨hd, hdouble⟩ := datum_of_int (hs ▸ h)
    rw [datum_convert_float _ h', hd, hdouble]
    rfl
  | uitofp h' =>
    obtain ⟨b, rfl⟩ := exists_bool hs
    rw [datum_convert_float _ h']
    rfl
  | fptosi h h' =>
    obtain ⟨hd, hint⟩ := datum_of_float (hs ▸ h)
    rw [datum_convert_int _ h', hd, hint]
    rfl

/-- A constant read as a number or a truth value. -/
theorem ofLiteral_datum {c : Literal} (h : Datum.ofLiteral c = v.datum) :
    Value.truth c = v.isTrue ∧ Value.toInt c = v.toInt64 ∧ Value.toDouble c = v.toDouble := by
  cases v with
  | i32 v =>
    cases c <;> cases h
    exact ⟨bne_zero_toInt64 v, rfl, by simp [Value.toDouble, toDouble]⟩
  | i64 | f32 | f64 | bool =>
    cases c <;> cases h
    exact ⟨rfl, rfl, rfl⟩

/-- A conversion of a constant. -/
theorem fold_datum {w w' : Value} {a : IR.Activation} (hw : a.get w = .ok v.datum)
    (hfold : w.fold ty.lower = some w') : a.get w' = .ok (v.convert ty).datum := by
  obtain ⟨c, hc, hcases⟩ := IR.Value.fold_eq_some hfold
  have hlit : Datum.ofLiteral c = v.datum := by simpa [IR.Activation.get, hc] using hw
  obtain ⟨htruth, hint, hdouble⟩ := ofLiteral_datum hlit
  obtain ⟨hty, rfl⟩ | ⟨hty, rfl⟩ | ⟨hty, rfl⟩ := hcases
  · obtain rfl : ty = .bool := Ty.lower_injective hty
    exact congrArg (fun b => Except.ok (Datum.bool b)) htruth
  · rw [datum_convert_int v hty, ← hint]
    rfl
  · rw [datum_convert_float v hty, ← hdouble]
    rfl

/-- A conversion to a truth value by comparing with zero. -/
theorem order_zero {zero : Value} (a : IR.Activation)
    (hz : IR.Function.zero? v.ty.lower = some zero) :
    ∃ d, a.get zero = .ok d ∧ (Datum.order v.datum d).map
      (fun o => Datum.bool (Datum.holds .ne o)) = .ok (v.convert .bool).datum := by
  have hok : ∀ {b b' : Bool}, b = b' →
      (Except.ok (.bool b) : Except Fault Datum) = .ok (.bool b') :=
    fun h => h ▸ rfl
  cases v with
  | i32 v =>
    cases hz
    exact ⟨_, rfl, hok ((holds_ne_int _ _).trans (bne_zero_toInt64 v))⟩
  | i64 v =>
    cases hz
    exact ⟨_, rfl, hok (holds_ne_int _ _)⟩
  | f32 x =>
    cases hz
    exact ⟨_, rfl, hok (Double.holds_ne_zero x.val)⟩
  | f64 x =>
    cases hz
    exact ⟨_, rfl, hok (Double.holds_ne_zero x)⟩
  | bool => cases hz

end Conversions

/-! ## Operators -/

/-- `d` is what the value `v` of type `ty` is kept as. -/
def Kept (ty : IR.Ty) (v : Val) (d : Datum) : Prop := v.datum = d ∧ v.ty.lower = ty

/-- `d` is what a call returns if the value is `o`, of type `ty` or missing like it. -/
def Returned (ty : Option Ty) (o : Option Val) (d : Option Datum) : Prop :=
  o.map datum = d ∧ o.map Val.ty = ty

/-- Only one outcome agrees with what a run has come to. -/
theorem eq_of_agree {ty : Option Ty} {o o' : Except Failure (Option Val)}
    {r : Except Fault (Option Datum)} (h : Agree (Returned ty) o r)
    (h' : Agree (Returned ty) o' r) : o = o' := by
  cases h with
  | @ok x _ hx =>
    cases h' with
    | @ok y _ hy =>
      obtain ⟨rfl, rfl⟩ := hx
      obtain ⟨hd, hty⟩ := hy
      cases x with
      | none => rw [Option.map_eq_none_iff.mp hd]
      | some x =>
        obtain ⟨y, rfl, hxy⟩ := Option.map_eq_some_iff.mp hd
        rw [datum_injective (Option.some.inj hty) hxy]
  | error he =>
    cases h' with
    | error he' => cases he <;> cases he' <;> rfl

/-- Arithmetic, if it is done in the same way on integers and floats and integers of 32 bits wrap.
-/
theorem agree_arith {op : IR.Arith} {int32 : Int32 → Int32 → Int32} {int64 : Int64 → Int64 → Int64}
    {double : Double → Double → Double} (h64 : ∀ l r, Datum.arithInt op l r = .ok (int64 l r))
    (h32 : ∀ l r : Int32, (int64 l.toInt64 r.toInt64).toInt32 = int32 l r)
    (hdouble : ∀ l r, Datum.arithFloat op l r = .ok (double l r)) {x y : Val} (hty : y.ty = x.ty)
    (hnum : x.ty ≠ .bool) :
    Agree (Kept x.ty.lower) (x.arith int32 int64 double y)
      ((Datum.arith op x.datum y.datum).map (·.narrow x.ty.lower)) := by
  cases x <;> cases y <;> cases hty
  case i32 l r =>
    simp only [arith, datum, Datum.arith, h64]
    exact .ok ⟨congrArg (fun v : Int32 => Datum.int v.toInt64) (h32 l r).symm, rfl⟩
  case i64 l r =>
    simp only [arith, datum, Datum.arith, h64]
    exact .ok ⟨rfl, rfl⟩
  case f32 l r =>
    simp only [arith, datum, Datum.arith, hdouble]
    exact .ok ⟨rfl, rfl⟩
  case f64 l r =>
    simp only [arith, datum, Datum.arith, hdouble]
    exact .ok ⟨rfl, rfl⟩
  case bool => exact absurd rfl hnum

theorem agree_quotient {x y : Val} (hty : y.ty = x.ty) (hfloat : x.ty.lower.isFloat = true) :
    Agree (Kept x.ty.lower) (x.quotient y)
      ((Datum.arith .fdiv x.datum y.datum).map (·.narrow x.ty.lower)) := by
  cases x <;> cases y <;> cases hty
  case f32 | f64 => exact .ok ⟨rfl, rfl⟩
  case i32 | i64 | bool => cases hfloat

theorem toInt32_div (l r : Int32) : (l.toInt64 / r.toInt64).toInt32 = l / r := by
  apply Int32.toInt.inj
  rw [Int64.toInt_toInt32, Int64.toInt_div, Int32.toInt_div, Int32.toInt_toInt64,
    Int32.toInt_toInt64]
  exact Int.bmod_bmod_of_dvd (by decide)

theorem agree_divide {x y : Val} (hty : y.ty = x.ty) (hint : x.ty.lower.isInt = true) :
    Agree (Kept x.ty.lower) (x.divide y)
      ((Datum.arith .sdiv x.datum y.datum).map (·.narrow x.ty.lower)) := by
  cases x <;> cases y <;> cases hty
  case i32 l r =>
    have hrange : l.toInt64 ≠ Int64.minValue := by
      intro h
      have hl := Int32.minValue_le_toInt l
      rw [← Int32.toInt_toInt64 l, h] at hl
      exact absurd hl (by decide)
    by_cases hr : r = 0
    · simp only [divide, datum, Datum.arith, Datum.arithInt, Datum.divide, toInt64_eq_zero, hr,
        if_true]
      exact .error .divideByZero
    · simp only [divide, datum, Datum.arith, Datum.arithInt, Datum.divide, toInt64_eq_zero, hr,
        hrange, false_and, if_false]
      exact .ok ⟨congrArg (fun v : Int32 => Datum.int v.toInt64) (toInt32_div l r).symm, rfl⟩
  case i64 l r =>
    simp only [divide, datum, Datum.arith, Datum.arithInt, Datum.divide]
    split
    · exact .error .divideByZero
    · split
      · exact .error .divideOverflow
      · exact .ok ⟨rfl, rfl⟩
  case f32 | f64 | bool => cases hint

theorem agree_order {x y : Val} (hty : y.ty = x.ty) :
    Agree (· = ·) (x.order y) (Datum.order x.datum y.datum) := by
  cases x <;> cases y <;> cases hty
  case i32 l r =>
    simp only [order, datum, Datum.order, Int32.toInt64_lt]
    exact .ok rfl
  case i64 | f32 | f64 | bool => exact .ok rfl

end Val

namespace Operator

theorem lower_common (op : Operator) (l r : Ty) :
    (op.common l r).lower = op.operandTy l.lower r.lower := by
  cases op <;> cases l <;> cases r <;> rfl

variable {a : IR.Activation} {call : String → List Datum → Run (Option Datum)} {v w : Value}
  {x y : Val}

/-- What an operation leaves if it gives the value `z` of type `ty`. -/
def Left (a : IR.Activation) (ty : IR.Ty) (z : Val) (r : Option Datum × IR.Activation) : Prop :=
  r = (some z.datum, a) ∧ z.ty.lower = ty

theorem matches_arith {op : IR.Arith} {o : Except Failure Val} (hv : a.get v = .ok x.datum)
    (hw : a.get w = .ok y.datum) (hvt : v.ty = x.ty.lower)
    (h : Agree (Val.Kept x.ty.lower) o
      ((Datum.arith op x.datum y.datum).map (·.narrow x.ty.lower))) :
    Matches (Left a v.ty) (Eval.ofExcept o) ((IR.Operation.arith op v w).run call a) := by
  rw [← hvt, ← IR.Activation.arith_eq op hv hw] at h
  refine (Matches.ofExcept h).map (fun d => (some d, a)) ?_
  rintro z d ⟨rfl, hz⟩
  exact ⟨rfl, hz⟩

theorem matches_compare {op : IR.Relation} {o : Ordering} (hv : a.get v = .ok x.datum)
    (hw : a.get w = .ok y.datum) (hty : y.ty = x.ty)
    (hop : ∀ r, Datum.holds op r = (r == some o)) :
    Matches (Left a .i1) (Eval.ofExcept ((x.order y).map fun r => .bool (r == some o)))
      ((IR.Operation.compare op v w).run call a) := by
  have h : Agree (Val.Kept .i1) ((x.order y).map fun r => .bool (r == some o))
      (a.compare op v w) := by
    rw [IR.Activation.compare_eq op hv hw]
    refine (Val.agree_order hty).map _ _ ?_
    rintro r _ rfl
    exact ⟨congrArg Datum.bool (hop r).symm, rfl⟩
  refine (Matches.ofExcept h).map (fun d => (some d, a)) ?_
  rintro z d ⟨rfl, hz⟩
  exact ⟨rfl, hz⟩

/-- An operator on values of the type in which it computes. -/
theorem matches_operation (op : Operator) {l r : Ty} (hx : x.ty = op.common l r)
    (hy : y.ty = op.common l r) (hv : a.get v = .ok x.datum) (hw : a.get w = .ok y.datum)
    (hvt : v.ty = x.ty.lower) :
    Matches (Left a (op.resultTy v.ty)) (Eval.ofExcept (op.apply x y))
      ((op.operation v w).run call a) := by
  have hty : y.ty = x.ty := hy.trans hx.symm
  cases op with
  | add =>
    refine matches_arith hv hw hvt (Val.agree_arith (fun _ _ => rfl) ?_ (fun _ _ => rfl) hty ?_)
    · intro l r
      simp
    · rw [hx]
      cases l <;> cases r <;> decide
  | sub =>
    refine matches_arith hv hw hvt (Val.agree_arith (fun _ _ => rfl) ?_ (fun _ _ => rfl) hty ?_)
    · intro l r
      simp
    · rw [hx]
      cases l <;> cases r <;> decide
  | mul =>
    refine matches_arith hv hw hvt (Val.agree_arith (fun _ _ => rfl) ?_ (fun _ _ => rfl) hty ?_)
    · intro l r
      simp
    · rw [hx]
      cases l <;> cases r <;> decide
  | fdiv =>
    refine matches_arith hv hw hvt (Val.agree_quotient hty ?_)
    rw [hx]
    cases l <;> cases r <;> rfl
  | idiv =>
    refine matches_arith hv hw hvt (Val.agree_divide hty ?_)
    rw [hx]
    cases l <;> cases r <;> rfl
  | lt | gt | eq => exact matches_compare hv hw hty fun _ => rfl

end Operator

end ProcLang

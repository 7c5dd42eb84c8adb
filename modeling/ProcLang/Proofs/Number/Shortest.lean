import ProcLang.Number.Shortest
import ProcLang.Proofs.Number.Single

/-!
# Shortest decimals read back

The shortest decimal of a double lies in the interval of that double, and the intervals of two
magnitudes have no number in common: where they touch, one of the two significands is odd and its
interval does without its ends. A magnitude can therefore be told from its shortest decimal.

Everything is cross-multiplied. A decimal is a fraction, one is `unit` steps, and `Holds x a b` says
that the fraction `a / b` belongs to `x`.

## Main statements

* `Double.holds_shortest` — seventeen digits are enough, so the search for a decimal succeeds.
* `Double.fields_eq_of_holds` — a fraction belongs to one magnitude only.
* `Double.eq_of_shortest_eq` — doubles of one sign with the same shortest decimal are equal.
-/
namespace ProcLang

open Double (tenPow twoPow unit quarters)

/-! ## Decimals as fractions -/

namespace Double

theorem tenPow_pos (n : Nat) : 0 < tenPow n := Nat.pow_pos (by decide)

theorem tenPow_add (m n : Nat) : tenPow (m + n) = tenPow m * tenPow n := Nat.pow_add 10 m n

end Double

namespace Decimal

theorem ratio_eq (n : Nat) (e : Int) :
    (⟨n, e⟩ : Decimal).ratio = (n * tenPow e.toNat, tenPow (-e).toNat) := by
  cases e with
  | ofNat k => simp [ratio, tenPow]
  | negSucc k => simp [ratio, tenPow, Int.neg_negSucc]

theorem ratio_pos (d : Decimal) : 0 < d.ratio.2 := by
  rw [ratio_eq]
  exact Double.tenPow_pos _

/-- Trimming moves zeros from the digits to the exponent. -/
theorem exists_trimZeros (n : Nat) (e : Int) :
    ∃ j : Nat, n = (trimZeros n e).digits * tenPow j ∧ (trimZeros n e).exponent = e + j := by
  fun_induction trimZeros n e with
  | case1 n e h ih =>
    obtain ⟨j, hdigits, hexp⟩ := ih
    refine ⟨j + 1, ?_, by omega⟩
    have hten : tenPow 1 = 10 := rfl
    rw [Double.tenPow_add, hten, ← Nat.mul_assoc, ← hdigits]
    omega
  | case2 n e h => exact ⟨0, (Nat.mul_one n).symm, by simp⟩

theorem trimZeros_digits_mod {n : Nat} (h : n ≠ 0) (e : Int) : (trimZeros n e).digits % 10 ≠ 0 := by
  fun_induction trimZeros n e with
  | case1 n e hn ih => exact ih (by omega)
  | case2 n e hn => exact fun hmod => hn ⟨h, hmod⟩

/-- A decimal and its trimmed form are the same number. -/
theorem ratio_trimZeros (n : Nat) (e : Int) :
    (⟨n, e⟩ : Decimal).ratio.1 * (trimZeros n e).ratio.2 =
      (trimZeros n e).ratio.1 * (⟨n, e⟩ : Decimal).ratio.2 := by
  obtain ⟨j, hdigits, hexp⟩ := exists_trimZeros n e
  have hpow : tenPow j * tenPow e.toNat * tenPow (-(e + j)).toNat =
      tenPow (e + j).toNat * tenPow (-e).toNat := by
    simp only [← Double.tenPow_add]
    congr 1
    omega
  rw [ratio_eq, ratio_eq, hexp]
  generalize (trimZeros n e).digits = m at hdigits
  subst hdigits
  simp only [Nat.mul_assoc] at hpow ⊢
  rw [hpow]

end Decimal

namespace Double

/-! ## Intervals -/

/-- The fraction `a / b` lies in the interval of the magnitude of `x`. -/
def Holds (x : Double) (a b : Nat) : Prop :=
  if x.significand % 2 = 0 then x.lowerEnd * b ≤ a * quarters ∧ a * quarters ≤ x.upperEnd * b
  else x.lowerEnd * b < a * quarters ∧ a * quarters < x.upperEnd * b

theorem readsBack_iff {x : Double} {d : Decimal} :
    x.readsBack d = true ↔ x.Holds d.ratio.1 d.ratio.2 := by
  simp only [readsBack, Holds]
  split <;> simp

variable {x y : Double} {a b : Nat}

theorem Holds.weak (h : x.Holds a b) :
    x.lowerEnd * b ≤ a * quarters ∧ a * quarters ≤ x.upperEnd * b := by
  unfold Holds at h
  split at h <;> omega

theorem Holds.strict (h : x.Holds a b) (hodd : x.significand % 2 ≠ 0) :
    x.lowerEnd * b < a * quarters ∧ a * quarters < x.upperEnd * b := by
  unfold Holds at h
  rwa [if_neg hodd] at h

theorem holds_of_lt (hlow : x.lowerEnd * b < a * quarters)
    (hupp : a * quarters < x.upperEnd * b) : x.Holds a b := by
  unfold Holds
  split <;> omega

/-- Whether a fraction belongs to a magnitude depends on its value only. -/
theorem Holds.congr {a' b' : Nat} (h : x.Holds a b) (hb : 0 < b) (hb' : 0 < b')
    (heq : a * b' = a' * b) : x.Holds a' b' := by
  have hvalue : a * quarters * b' = a' * quarters * b := by
    rw [Nat.mul_right_comm, heq, Nat.mul_right_comm]
  have hscale : ∀ k : Nat, k * b * b' = k * b' * b := fun k => Nat.mul_right_comm k b b'
  have hle : ∀ k, k * b ≤ a * quarters ↔ k * b' ≤ a' * quarters := by
    intro k
    rw [← Nat.mul_le_mul_right_iff hb', hvalue, hscale, Nat.mul_le_mul_right_iff hb]
  have hge : ∀ k, a * quarters ≤ k * b ↔ a' * quarters ≤ k * b' := by
    intro k
    rw [← Nat.mul_le_mul_right_iff hb', hvalue, hscale, Nat.mul_le_mul_right_iff hb]
  unfold Holds at h ⊢
  simp only [← Nat.not_le, hle, hge] at h ⊢
  exact h

/-! ## Magnitudes -/

theorem fractionBits_lt (x : Double) : x.fractionBits < twoPow 52 := Nat.mod_lt _ (twoPow_pos 52)

theorem significand_lt (x : Double) : x.significand < twoPow 53 := by
  have hlt := x.fractionBits_lt
  have h53 : twoPow 53 = twoPow 52 + twoPow 52 := rfl
  unfold significand
  split <;> omega

theorem significand_of_ne_zero (h : x.exponentBits ≠ 0) :
    x.significand = twoPow 52 + x.fractionBits := if_neg h

/-- A double is its sign, its exponent and its fraction. -/
theorem eq_of_fields (hs : x.isNegative = y.isNegative) (he : x.exponentBits = y.exponentBits)
    (hf : x.fractionBits = y.fractionBits) : x = y := by
  obtain ⟨b⟩ := x
  obtain ⟨c⟩ := y
  have h52 : twoPow 52 = 4503599627370496 := rfl
  have h63 : twoPow 63 = 9223372036854775808 := rfl
  have h11 : twoPow 11 = 2048 := rfl
  simp only [isNegative, exponentBits, fractionBits, h52, h63, h11, decide_eq_decide] at hs he hf
  have hb := b.toNat_lt
  have hc := c.toNat_lt
  exact congrArg Double.mk (UInt64.toNat_inj.mp (by omega))

/-- The distance from a positive double down to the end of its interval, in quarters of a step at
its scale. -/
def gap (x : Double) : Nat := if x.fractionBits = 0 ∧ 1 < x.exponentBits then 1 else 2

theorem twoPow_scale_le_steps (hx : x.steps ≠ 0) : twoPow x.scale ≤ x.steps :=
  Nat.le_mul_of_pos_left _ (Nat.pos_of_ne_zero fun h => hx (by simp [steps, h]))

theorem lowerEnd_add (hx : x.steps ≠ 0) :
    x.lowerEnd + x.gap * twoPow x.scale = 4 * x.steps := by
  have hle := twoPow_scale_le_steps hx
  unfold lowerEnd gap
  split <;> simp only <;> omega

theorem lowerEnd_pos (hx : x.steps ≠ 0) : 0 < x.lowerEnd := by
  have hle := twoPow_scale_le_steps hx
  have hpos := twoPow_pos x.scale
  unfold lowerEnd
  split <;> simp only <;> omega

theorem steps_ne_zero_of_lt (h : x.significand < y.significand) : y.steps ≠ 0 :=
  Nat.mul_ne_zero (by omega) (Nat.ne_of_gt (twoPow_pos _))

/-- The interval of `x` ends where that of `y` starts, or before that; where the two touch, one of
the significands is odd and the other is even. -/
def Below (x y : Double) : Prop :=
  x.upperEnd ≤ y.lowerEnd ∧ (y.lowerEnd ≤ x.upperEnd → x.significand % 2 ≠ y.significand % 2)

/-- At one scale a larger significand is larger by a whole step. -/
theorem below_of_scale_eq (hs : x.scale = y.scale) (hlt : x.significand < y.significand)
    (hgap : ¬ (y.fractionBits = 0 ∧ 1 < y.exponentBits)) : x.Below y := by
  have hlow := lowerEnd_add (steps_ne_zero_of_lt hlt)
  rw [gap, if_neg hgap] at hlow
  obtain ⟨k, hk⟩ := Nat.exists_eq_add_of_lt hlt
  have hpos := twoPow_pos y.scale
  have hsteps : y.steps = x.steps + k * twoPow y.scale + twoPow y.scale := by
    simp only [steps, hk, hs, Nat.add_mul, Nat.one_mul]
  have hupp : x.upperEnd = 4 * x.steps + 2 * twoPow y.scale := by rw [upperEnd, hs]
  refine ⟨by omega, fun htouch => ?_⟩
  have hzero : k * twoPow y.scale = 0 := by omega
  have : k = 0 := (Nat.mul_eq_zero.mp hzero).resolve_right (Nat.ne_of_gt hpos)
  omega

theorem two_mul_twoPow_le {m n : Nat} (h : m < n) : 2 * twoPow m ≤ twoPow n := by
  have htwo : twoPow (m + 1) = twoPow m * 2 := twoPow_add _ _
  rw [Nat.mul_comm, ← htwo]
  exact twoPow_le h

/-- At a larger scale steps are twice as wide at least, and the significand is full. -/
theorem below_of_scale_lt (hs : x.scale < y.scale) : x.Below y := by
  have h52 : twoPow 52 = 4503599627370496 := rfl
  have h53 : twoPow 53 = 9007199254740992 := rfl
  have hsig : x.significand ≤ 9007199254740991 := by
    have := x.significand_lt
    omega
  have hexp : 1 < y.exponentBits := by
    unfold scale at hs
    omega
  have hfull := significand_of_ne_zero (x := y) (by omega)
  have hpos := twoPow_pos y.scale
  have hlow := lowerEnd_add (x := y) (Nat.mul_ne_zero (by omega) (Nat.ne_of_gt hpos))
  have hwide := two_mul_twoPow_le hs
  have hupp : x.upperEnd = 4 * x.steps + 2 * twoPow x.scale := rfl
  have hxsteps : x.steps ≤ 9007199254740991 * twoPow x.scale := Nat.mul_le_mul_right _ hsig
  by_cases hzero : y.fractionBits = 0
  · have hysteps : y.steps = 4503599627370496 * twoPow y.scale := by
      rw [steps, hfull, hzero, h52]
    rw [gap, if_pos ⟨hzero, hexp⟩] at hlow
    refine ⟨by omega, fun htouch => ?_⟩
    -- The two touch only if `x` is the last one of its scale.
    have hlast : 9007199254740991 * twoPow x.scale ≤ x.significand * twoPow x.scale := by
      change _ ≤ x.steps
      omega
    have hodd : x.significand = 9007199254740991 :=
      Nat.le_antisymm hsig (Nat.le_of_mul_le_mul_right hlast (twoPow_pos _))
    rw [hodd, hfull, hzero, h52]
    decide
  · have hysteps : 4503599627370497 * twoPow y.scale ≤ y.steps :=
      Nat.mul_le_mul_right _ (by omega)
    rw [gap, if_neg fun h => hzero h.1] at hlow
    exact ⟨by omega, by omega⟩

theorem below_of_lt (h : x.exponentBits < y.exponentBits ∨
    x.exponentBits = y.exponentBits ∧ x.fractionBits < y.fractionBits) : x.Below y := by
  have hx := x.fractionBits_lt
  by_cases hs : x.scale < y.scale
  · exact below_of_scale_lt hs
  · unfold scale at hs
    apply below_of_scale_eq
    · unfold scale
      omega
    · unfold significand
      split <;> split <;> omega
    · omega

theorem Below.not_holds (h : x.Below y) (hb : 0 < b) (hx : x.Holds a b) : ¬ y.Holds a b := by
  intro hy
  obtain ⟨hle, htouch⟩ := h
  have hmul : x.upperEnd * b ≤ y.lowerEnd * b := Nat.mul_le_mul_right b hle
  have hparity := htouch (Nat.le_of_mul_le_mul_right (Nat.le_trans hy.weak.1 hx.weak.2) hb)
  by_cases hodd : x.significand % 2 = 0
  · have := (hy.strict (by omega)).1
    have := hx.weak.2
    omega
  · have := (hx.strict hodd).2
    have := hy.weak.1
    omega

/-- A fraction belongs to one magnitude only. -/
theorem fields_eq_of_holds (hb : 0 < b) (hx : x.Holds a b) (hy : y.Holds a b) :
    x.exponentBits = y.exponentBits ∧ x.fractionBits = y.fractionBits := by
  refine Decidable.byContradiction fun hne => ?_
  by_cases hlt : x.exponentBits < y.exponentBits ∨
      x.exponentBits = y.exponentBits ∧ x.fractionBits < y.fractionBits
  · exact (below_of_lt hlt).not_holds hb hx hy
  · exact (below_of_lt (by omega)).not_holds hb hy hx

/-! ## Seventeen digits are enough -/

theorem gridBelow_eq (x : Double) (e : Int) :
    x.gridBelow e = x.steps * tenPow (-e).toNat / (unit * tenPow e.toNat) := by
  cases e with
  | ofNat k => simp [gridBelow, tenPow]
  | negSucc k => simp [gridBelow, tenPow, Int.neg_negSucc]

theorem unit_pos : 0 < unit := twoPow_pos 1074

theorem unit_le_tenPow : unit ≤ tenPow 400 := by decide +kernel

/-- The power of ten at the leading digit of a positive double is not above it. -/
theorem exists_decimalOrder (hx : x.steps ≠ 0) :
    ∃ l : Nat, x.decimalOrder = l - 400 ∧ tenPow l * unit ≤ x.steps * tenPow 400 := by
  have hlen : 0 < (Nat.toDigits 10 (x.steps * tenPow 400 / unit)).length := Nat.length_toDigits_pos
  have hone : 1 ≤ x.steps * tenPow 400 / unit := by
    rw [Nat.le_div_iff_mul_le unit_pos, Nat.one_mul]
    exact Nat.le_trans unit_le_tenPow (Nat.le_mul_of_pos_left _ (Nat.pos_of_ne_zero hx))
  refine ⟨(Nat.toDigits 10 (x.steps * tenPow 400 / unit)).length - 1, ?_, ?_⟩
  · unfold decimalOrder
    omega
  · refine Nat.mul_le_of_le_div _ _ _ (Nat.le_of_not_lt fun hlt => ?_)
    by_cases hl : (Nat.toDigits 10 (x.steps * tenPow 400 / unit)).length - 1 = 0
    · rw [hl] at hlt
      exact Nat.not_lt.mpr hone hlt
    · have := (Nat.length_toDigits_le_iff (by decide) (Nat.pos_of_ne_zero hl)).mpr hlt
      omega

/-- Sixteen places behind the leading digit, a power of ten is small. -/
theorem tenPow_grid_le (hx : x.steps ≠ 0) :
    tenPow 16 * (tenPow (x.decimalOrder - (16 : Nat)).toNat * unit) ≤
      x.steps * tenPow (-(x.decimalOrder - (16 : Nat))).toNat := by
  obtain ⟨l, horder, hle⟩ := exists_decimalOrder hx
  generalize hp : (x.decimalOrder - (16 : Nat)).toNat = p
  generalize hq : (-(x.decimalOrder - (16 : Nat))).toNat = q
  have hpow : tenPow 16 * tenPow p * tenPow 400 = tenPow q * tenPow l := by
    simp only [← tenPow_add]
    congr 1
    omega
  refine Nat.le_of_mul_le_mul_right ?_ (tenPow_pos 400)
  calc tenPow 16 * (tenPow p * unit) * tenPow 400
      = tenPow 16 * tenPow p * tenPow 400 * unit := by
        rw [← Nat.mul_assoc, Nat.mul_right_comm]
    _ = tenPow q * (tenPow l * unit) := by rw [hpow, Nat.mul_assoc]
    _ ≤ tenPow q * (x.steps * tenPow 400) := Nat.mul_le_mul_left _ hle
    _ = x.steps * tenPow q * tenPow 400 := by rw [← Nat.mul_assoc, Nat.mul_comm (tenPow q)]

/-- A grid as fine as that is finer than the interval is wide. -/
theorem grid_lt_width {p q : Nat} (hq : 0 < q) (h : tenPow 16 * (p * unit) ≤ x.steps * q) :
    4 * (p * unit) < (x.gap + 2) * (twoPow x.scale * q) := by
  have h16 : tenPow 16 = 10000000000000000 := rfl
  have h52 : twoPow 52 = 4503599627370496 := rfl
  have h53 : twoPow 53 = 9007199254740992 := rfl
  have hpos : 0 < twoPow x.scale * q := Nat.mul_pos (twoPow_pos _) hq
  rw [steps, Nat.mul_assoc, h16] at h
  unfold gap
  split
  next hpower =>
    have hsig : x.significand = 4503599627370496 := by
      rw [significand_of_ne_zero (by omega), hpower.1, h52]
    rw [hsig] at h
    omega
  next =>
    have hsig : x.significand * (twoPow x.scale * q) ≤ 9007199254740992 * (twoPow x.scale * q) :=
      Nat.mul_le_mul_right _ (h53 ▸ Nat.le_of_lt x.significand_lt)
    omega

/-- On such a grid one of the neighbours of a double belongs to it. -/
theorem holds_grid (hx : x.steps ≠ 0) {p q c : Nat} (hq : 0 < q)
    (h : tenPow 16 * (p * unit) ≤ x.steps * q) (hfloor : c * (p * unit) ≤ x.steps * q)
    (hceil : x.steps * q < (c + 1) * (p * unit)) :
    x.Holds (c * p) q ∨ x.Holds ((c + 1) * p) q := by
  have hwidth := grid_lt_width hq h
  rw [Nat.add_mul] at hwidth
  -- All in quarter steps, times `q`.
  have hlow : x.lowerEnd * q + x.gap * (twoPow x.scale * q) = 4 * (x.steps * q) := by
    rw [← Nat.mul_assoc, ← Nat.add_mul, lowerEnd_add hx, Nat.mul_assoc]
  have hupp : x.upperEnd * q = 4 * (x.steps * q) + 2 * (twoPow x.scale * q) := by
    rw [upperEnd, Nat.add_mul, Nat.mul_assoc, Nat.mul_assoc]
  have hpoint : ∀ n, n * p * quarters = 4 * (n * (p * unit)) := by
    intro n
    rw [quarters, Nat.mul_left_comm, Nat.mul_assoc]
  have hnext : (c + 1) * (p * unit) = c * (p * unit) + p * unit := Nat.succ_mul _ _
  by_cases hin : x.lowerEnd * q < c * p * quarters
  · refine .inl (holds_of_lt hin ?_)
    have := Nat.mul_pos (twoPow_pos x.scale) hq
    rw [hpoint, hupp]
    omega
  · rw [hpoint] at hin
    refine .inr (holds_of_lt ?_ ?_) <;> rw [hpoint]
    · omega
    · omega

theorem gridBelow_le (x : Double) (e : Int) :
    x.gridBelow e * (tenPow e.toNat * unit) ≤ x.steps * tenPow (-e).toNat := by
  rw [gridBelow_eq, Nat.mul_comm (tenPow e.toNat)]
  exact Nat.div_mul_le_self _ _

theorem lt_gridBelow_succ (x : Double) (e : Int) :
    x.steps * tenPow (-e).toNat < (x.gridBelow e + 1) * (tenPow e.toNat * unit) := by
  rw [gridBelow_eq, Nat.mul_comm (tenPow e.toNat), Nat.mul_comm (_ + 1)]
  exact Nat.lt_mul_div_succ _ (Nat.mul_pos unit_pos (tenPow_pos _))

/-! ## The search -/

theorem readsBack_of_onGrid? {e : Int} {d : Decimal} (h : x.onGrid? e = some d) :
    x.readsBack d = true := by
  unfold onGrid? at h
  simp only at h
  split at h
  next hbelow habove =>
    rw [← Option.some.inj h]
    split
    · exact hbelow
    · exact habove
  next hbelow habove =>
    rw [← Option.some.inj h]
    exact hbelow
  next hbelow habove =>
    rw [← Option.some.inj h]
    exact habove
  next => exact absurd h (Option.some_ne_none d).symm

theorem onGrid?_ne_none {e : Int} (h : x.readsBack ⟨x.gridBelow e, e⟩ = true ∨
    x.readsBack ⟨x.gridBelow e + 1, e⟩ = true) : x.onGrid? e ≠ none := by
  unfold onGrid?
  simp only
  split
  next => exact Option.some_ne_none _
  next => exact Option.some_ne_none _
  next => exact Option.some_ne_none _
  next hbelow habove =>
    rw [hbelow, habove] at h
    simp at h

theorem onGrid?_order (hx : x.steps ≠ 0) : x.onGrid? (x.decimalOrder - (16 : Nat)) ≠ none := by
  have hfine := tenPow_grid_le hx
  generalize x.decimalOrder - (16 : Nat) = e at hfine ⊢
  apply onGrid?_ne_none
  rw [readsBack_iff, readsBack_iff, Decimal.ratio_eq, Decimal.ratio_eq]
  exact holds_grid hx (tenPow_pos _) hfine (gridBelow_le x e) (lt_gridBelow_succ x e)

-- Stated of the function and not of its values: unfolding `shortest x` makes the kernel run the
-- search on a double it does not know.
theorem shortest_eq : shortest = fun x =>
    ((List.range 17).findSome? fun (k : Nat) => x.onGrid? (x.decimalOrder - k)).elim
      ⟨x.gridBelow (x.decimalOrder - 16), x.decimalOrder - 16⟩
      fun d => .trimZeros d.digits d.exponent := by
  delta shortest
  funext x
  dsimp only
  cases (List.range 17).findSome? fun (k : Nat) => x.onGrid? (x.decimalOrder - k) with
  | none => rfl
  | some d => rfl

theorem exists_shortest (hx : x.steps ≠ 0) :
    ∃ d : Decimal, x.readsBack d = true ∧ x.shortest = .trimZeros d.digits d.exponent := by
  cases hfind : (List.range 17).findSome? fun (k : Nat) => onGrid? x (x.decimalOrder - k) with
  | none =>
    have := List.findSome?_eq_none_iff.mp hfind 16 (by simp)
    exact absurd this (onGrid?_order hx)
  | some d =>
    obtain ⟨k, -, hk⟩ := List.exists_of_findSome?_eq_some hfind
    refine ⟨d, readsBack_of_onGrid? hk, ?_⟩
    simp only [shortest_eq, hfind, Option.elim_some]

/-- The shortest decimal of a double reads back. -/
theorem holds_shortest (hx : x.steps ≠ 0) : x.Holds x.shortest.ratio.1 x.shortest.ratio.2 := by
  obtain ⟨d, hd, heq⟩ := exists_shortest hx
  rw [heq]
  exact (readsBack_iff.mp hd).congr d.ratio_pos (Decimal.ratio_pos _) (Decimal.ratio_trimZeros _ _)

theorem shortest_digits_mod (hx : x.steps ≠ 0) : x.shortest.digits % 10 ≠ 0 := by
  obtain ⟨d, hd, heq⟩ := exists_shortest hx
  rw [heq]
  refine Decimal.trimZeros_digits_mod (fun hzero => ?_) _
  have hlow := (readsBack_iff.mp hd).weak.1
  rw [Decimal.ratio_eq, hzero, Nat.zero_mul, Nat.zero_mul] at hlow
  exact Nat.ne_of_gt (Nat.mul_pos (lowerEnd_pos hx) (tenPow_pos _)) (Nat.le_zero.mp hlow)

/-- Doubles of one sign that are not zero are told apart by their shortest decimals. -/
theorem eq_of_shortest_eq (hx : x.steps ≠ 0) (hy : y.steps ≠ 0)
    (hs : x.isNegative = y.isNegative) (heq : x.shortest = y.shortest) : x = y := by
  have hxy := holds_shortest hx
  rw [heq] at hxy
  obtain ⟨he, hf⟩ := fields_eq_of_holds (Decimal.ratio_pos _) hxy (holds_shortest hy)
  exact eq_of_fields hs he hf

end Double
end ProcLang

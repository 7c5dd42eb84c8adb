import ProcLang.Number.Double

/-!
# Rounding to single precision

A number that has been rounded to single precision stays the same when it is rounded again. A
magnitude that single precision can hold is a whole number of at most 24 binary digits times a power
of two, which doubles can hold as well; infinities and bits that are not a number are kept.

## Main statements

* `Double.steps_ofSteps` — what `ofSteps` writes is what `steps` reads.
* `Double.roundSingle_roundSingle`.
-/
namespace ProcLang.Double

/-! ## Powers of two -/

theorem twoPow_pos (n : Nat) : 0 < twoPow n := Nat.two_pow_pos n

theorem twoPow_add (m n : Nat) : twoPow (m + n) = twoPow m * twoPow n := Nat.pow_add 2 m n

theorem twoPow_dvd {m n : Nat} (h : m ≤ n) : twoPow m ∣ twoPow n := Nat.pow_dvd_pow 2 h

theorem twoPow_le {m n : Nat} (h : m ≤ n) : twoPow m ≤ twoPow n := Nat.pow_le_pow_right (by omega) h

theorem twoPow_lt {m n : Nat} (h : m < n) : twoPow m < twoPow n := Nat.pow_lt_pow_right (by omega) h

theorem lt_twoPow_succ_log2 (n : Nat) : n < twoPow (n.log2 + 1) := Nat.lt_log2_self

theorem twoPow_log2_le {n : Nat} (h : n ≠ 0) : twoPow n.log2 ≤ n := Nat.log2_self_le h

theorem log2_lt {n k : Nat} (h : n ≠ 0) : n.log2 < k ↔ n < twoPow k := Nat.log2_lt h

/-! ## Reading what has been written -/

/-- The fields of a double that is written as a sign and a magnitude. -/
theorem fields_ofNat (negative : Bool) {m : Nat} (hm : m ≤ 2047 * twoPow 52) :
    let x : Double := ⟨UInt64.ofNat (if negative then twoPow 63 + m else m)⟩
    x.exponentBits = m / twoPow 52 ∧ x.fractionBits = m % twoPow 52 ∧ x.isNegative = negative := by
  have h52 : twoPow 52 = 4503599627370496 := rfl
  have h63 : twoPow 63 = 9223372036854775808 := rfl
  have h11 : twoPow 11 = 2048 := rfl
  rw [h52] at hm
  simp only [exponentBits, fractionBits, isNegative, h52, h63, h11, UInt64.toNat_ofNat']
  cases negative with
  | true => simp; omega
  | false => simp; omega

theorem magnitudeBits_of_lt {n : Nat} (h : n < twoPow 52) : magnitudeBits n = n := by
  simp [magnitudeBits, h]

/-- The magnitude of a number of at least 53 digits: its first 53 digits and where they stand. -/
theorem magnitudeBits_of_le {n : Nat} (h : twoPow 52 ≤ n) :
    ∃ m, n / twoPow (n.log2 - 52) = twoPow 52 + m ∧ m < twoPow 52 ∧
      magnitudeBits n = (n.log2 - 51) * twoPow 52 + m := by
  have hpos := twoPow_pos 52
  have hn : n ≠ 0 := by omega
  have hlog : 52 ≤ n.log2 := by
    refine Nat.le_of_not_lt fun hlt => ?_
    have := (log2_lt hn).mp hlt
    omega
  have hsplit : n.log2 = 52 + (n.log2 - 52) := by omega
  have hlow : twoPow 52 ≤ n / twoPow (n.log2 - 52) := by
    rw [Nat.le_div_iff_mul_le (twoPow_pos _), ← twoPow_add, ← hsplit]
    exact twoPow_log2_le hn
  have hhigh : n / twoPow (n.log2 - 52) < twoPow 53 := by
    rw [Nat.div_lt_iff_lt_mul (twoPow_pos _), ← twoPow_add]
    have := lt_twoPow_succ_log2 n
    have heq : 53 + (n.log2 - 52) = n.log2 + 1 := by omega
    rwa [heq]
  have h53 : twoPow 53 = twoPow 52 + twoPow 52 := rfl
  refine ⟨n / twoPow (n.log2 - 52) - twoPow 52, by omega, by omega, ?_⟩
  simp [magnitudeBits, Nat.not_lt.mpr h]

theorem log2_le {n k : Nat} (h : n ≤ twoPow k) : n.log2 ≤ k := by
  by_cases hn : n = 0
  · simp [hn]
  · exact Nat.lt_succ_iff.mp ((log2_lt hn).mpr (Nat.lt_of_le_of_lt h (twoPow_lt k.lt_succ_self)))

/-- What `ofSteps` writes is what `steps` reads, if no digits are lost and the number is not past
infinity. -/
theorem steps_ofSteps (negative : Bool) {n : Nat} (hd : twoPow (n.log2 - 52) ∣ n)
    (hn : n ≤ twoPow 2098) :
    (ofSteps negative n).steps = n ∧ (ofSteps negative n).isNegative = negative ∧
      (ofSteps negative n).isNaN = false := by
  have hpos := twoPow_pos 52
  by_cases hlt : n < twoPow 52
  · have hmin : min (magnitudeBits n) (2047 * twoPow 52) = n := by
      rw [magnitudeBits_of_lt hlt]
      omega
    obtain ⟨he, hf, hs⟩ := fields_ofNat negative (m := n) (by omega)
    rw [Nat.div_eq_of_lt hlt] at he
    rw [Nat.mod_eq_of_lt hlt] at hf
    have hone : twoPow 0 = 1 := rfl
    simp [ofSteps, hmin, steps, significand, scale, isNaN, he, hf, hs, hone]
  · obtain ⟨m, hm, hmlt, hbits⟩ := magnitudeBits_of_le (Nat.not_lt.mp hlt)
    have hlog : n.log2 ≤ 2098 := log2_le hn
    have hlow : 52 ≤ n.log2 := by
      refine Nat.le_of_not_lt fun hlt' => hlt ((log2_lt (by omega)).mp hlt')
    -- At the end of the range there is only infinity.
    have hinf : n.log2 = 2098 → m = 0 := by
      intro h
      have heq : n = twoPow n.log2 := by
        rw [← h] at hn
        exact Nat.le_antisymm hn (twoPow_log2_le (by omega))
      have hsplit : n.log2 = 52 + (n.log2 - 52) := by omega
      have hdiv : n / twoPow (n.log2 - 52) = twoPow 52 := by
        rw [Nat.div_eq_iff_eq_mul_left (twoPow_pos _) hd, ← twoPow_add, ← hsplit]
        exact heq
      omega
    have hle : magnitudeBits n ≤ 2047 * twoPow 52 := by
      have h52 : twoPow 52 = 4503599627370496 := rfl
      rw [h52] at hmlt
      rw [hbits, h52]
      by_cases h : n.log2 = 2098
      · exact Nat.le_of_eq (by rw [h, hinf h])
      · omega
    obtain ⟨he, hf, hs⟩ := fields_ofNat negative hle
    have hexp : magnitudeBits n / twoPow 52 = n.log2 - 51 := by
      rw [hbits, Nat.mul_comm, Nat.mul_add_div hpos, Nat.div_eq_of_lt hmlt, Nat.add_zero]
    have hfrac : magnitudeBits n % twoPow 52 = m := by
      rw [hbits, Nat.mul_comm, Nat.mul_add_mod, Nat.mod_eq_of_lt hmlt]
    rw [hexp] at he
    rw [hfrac] at hf
    have hmin : min (magnitudeBits n) (2047 * twoPow 52) = magnitudeBits n := by omega
    have hne : n.log2 - 51 ≠ 0 := by omega
    have hscale : n.log2 - 51 - 1 = n.log2 - 52 := by omega
    refine ⟨?_, by simp only [ofSteps, hmin, hs], ?_⟩
    · simp only [ofSteps, hmin, steps, significand, scale, he, hf, if_neg hne, hscale, ← hm]
      exact Nat.div_mul_cancel hd
    · simp only [ofSteps, hmin, isNaN, he, hf]
      by_cases h : n.log2 = 2098
      · simp [hinf h]
      · have : n.log2 - 51 ≠ 2047 := by omega
        simp [this]

/-! ## Rounded numbers -/

theorem roundDiv_of_dvd {n d : Nat} (hd : 0 < d) (h : d ∣ n) : roundDiv n d = n / d := by
  have hmod : n % d = 0 := Nat.mod_eq_zero_of_dvd h
  simp [roundDiv, hmod, hd]

theorem roundDiv_le (n d : Nat) : roundDiv n d ≤ n / d + 1 := by
  simp only [roundDiv]
  split
  · omega
  · split
    · omega
    · split <;> omega

/-- A number rounded to `p` digits is a whole number of that many digits, or the next power of two,
times a power of two. -/
theorem roundRatio_eq_mul (p least n : Nat) :
    ∃ q k, roundRatio p least n 1 = q * twoPow k ∧ q ≤ twoPow p ∧ least ≤ k := by
  have hlt : n / twoPow (max least (n.log2 + 1 - p)) < twoPow p := by
    rw [Nat.div_lt_iff_lt_mul (twoPow_pos _), ← twoPow_add]
    exact Nat.lt_of_lt_of_le (lt_twoPow_succ_log2 n) (twoPow_le (by omega))
  have hle := roundDiv_le n (twoPow (max least (n.log2 + 1 - p)))
  refine ⟨roundDiv n (twoPow (max least (n.log2 + 1 - p))), max least (n.log2 + 1 - p), ?_, ?_, ?_⟩
  · simp [roundRatio]
  · omega
  · omega

theorem log2_mul_le {p q : Nat} (hq : q ≤ twoPow p) (k : Nat) : (q * twoPow k).log2 ≤ p + k := by
  refine log2_le ?_
  rw [twoPow_add]
  exact Nat.mul_le_mul_right _ hq

/-- Such a number is not changed by rounding. -/
theorem roundRatio_mul {p least q k : Nat} (hp : 0 < p) (hq : q ≤ twoPow p) (hk : least ≤ k) :
    roundRatio p least (q * twoPow k) 1 = q * twoPow k := by
  have hgrid : twoPow (max least ((q * twoPow k).log2 + 1 - p)) ∣ q * twoPow k := by
    have hlog := log2_mul_le hq k
    by_cases hlt : q < twoPow p
    · have hlog' : (q * twoPow k).log2 + 1 - p ≤ k := by
        by_cases hzero : q * twoPow k = 0
        · rw [hzero, Nat.log2_zero]
          omega
        · have hmul : q * twoPow k < twoPow (p + k) := by
            rw [twoPow_add]
            exact Nat.mul_lt_mul_of_pos_right hlt (twoPow_pos k)
          have := (log2_lt hzero).mpr hmul
          omega
      exact Nat.dvd_trans (twoPow_dvd (by omega)) (Nat.dvd_mul_left ..)
    · obtain rfl : q = twoPow p := by omega
      rw [← twoPow_add] at hlog ⊢
      exact twoPow_dvd (by omega)
  simp only [roundRatio, Nat.div_one, Nat.one_mul]
  rw [roundDiv_of_dvd (twoPow_pos _) hgrid, Nat.div_mul_cancel hgrid]

/-! ## What is not a number -/

/-- Single precision keeps the high bits and sets the first one of the fraction. -/
theorem testBit_truncateNaN (x : Double) (i : Nat) :
    x.truncateNaN.bits.toNat.testBit i =
      (decide (29 ≤ i ∧ i < 64) && (x.bits.toNat.testBit i || decide (i = 51))) := by
  have hone : ((1 : UInt64) <<< 51).toNat = 2 ^ 51 := by decide
  have hshift : 29 % 2 ^ 64 % 64 = 29 := by decide
  rw [truncateNaN, UInt64.toNat_shiftLeft, UInt64.toNat_shiftRight, UInt64.toNat_or, hone]
  simp only [UInt64.toNat_ofNat, hshift, Nat.testBit_mod_two_pow, Nat.testBit_shiftLeft,
    Nat.testBit_shiftRight, Nat.testBit_or, Nat.testBit_two_pow]
  by_cases hi : 29 ≤ i
  · have hsub : 29 + (i - 29) = i := by omega
    simp [hi, hsub, eq_comm]
  · simp [hi]

theorem truncateNaN_truncateNaN (x : Double) : x.truncateNaN.truncateNaN = x.truncateNaN := by
  have hbits : x.truncateNaN.truncateNaN.bits.toNat = x.truncateNaN.bits.toNat := by
    refine Nat.eq_of_testBit_eq fun i => ?_
    simp only [testBit_truncateNaN]
    cases x.bits.toNat.testBit i <;> cases decide (29 ≤ i ∧ i < 64) <;> simp
  exact congrArg Double.mk (UInt64.toNat_inj.mp hbits)

theorem isNaN_truncateNaN {x : Double} (h : x.isNaN = true) : x.truncateNaN.isNaN = true := by
  have hexp : x.truncateNaN.exponentBits = x.exponentBits := by
    refine Nat.eq_of_testBit_eq fun i => ?_
    simp only [exponentBits, twoPow, Nat.pow_eq, Nat.testBit_mod_two_pow, Nat.testBit_div_two_pow,
      testBit_truncateNaN]
    by_cases hi : i < 11
    · have hrange : 29 ≤ i + 52 ∧ i + 52 < 64 := by omega
      have hne : i + 52 ≠ 51 := by omega
      simp [hrange, hne]
    · simp [hi]
  have hfrac : x.truncateNaN.fractionBits ≠ 0 := by
    intro hzero
    have hbit : x.truncateNaN.fractionBits.testBit 51 = true := by
      simp only [fractionBits, twoPow, Nat.pow_eq, Nat.testBit_mod_two_pow, testBit_truncateNaN]
      simp
    simp [hzero] at hbit
  simp only [isNaN, Bool.and_eq_true, beq_iff_eq, bne_iff_ne] at h ⊢
  exact ⟨hexp.trans h.1, hfrac⟩

/-! ## Rounding twice -/

theorem infinity_eq : twoPow 1024 * unit = twoPow 2098 := by
  rw [unit, ← twoPow_add]

/-- A number that single precision can hold is not changed. -/
theorem roundSingle_ofSteps (negative : Bool) {q k : Nat} (hq : q ≤ twoPow 24) (hk : 925 ≤ k)
    (hn : q * twoPow k = twoPow 1024 * unit ∨ q * twoPow k < twoPow 128 * unit) :
    (ofSteps negative (q * twoPow k)).roundSingle = ofSteps negative (q * twoPow k) := by
  have hmax := infinity_eq
  have hle : twoPow 128 * unit ≤ twoPow 1024 * unit :=
    Nat.mul_le_mul_right _ (twoPow_le (by omega))
  have hlog := log2_mul_le hq k
  have hd : twoPow ((q * twoPow k).log2 - 52) ∣ q * twoPow k :=
    Nat.dvd_trans (twoPow_dvd (by omega)) (Nat.dvd_mul_left ..)
  obtain ⟨hsteps, hneg, hnan⟩ := steps_ofSteps negative hd (by omega)
  simp only [roundSingle, hnan, hsteps, hneg, roundRatio_mul (by omega : 0 < 24) hq hk]
  rcases hn with hn | hn
  · simp [hn, hle]
  · simp [Nat.not_le.mpr hn]

/-- Rounding to single precision a second time changes nothing. -/
theorem roundSingle_roundSingle (x : Double) : x.roundSingle.roundSingle = x.roundSingle := by
  by_cases hnan : x.isNaN = true
  · simp [roundSingle, hnan, isNaN_truncateNaN hnan, truncateNaN_truncateNaN]
  · have hround : x.roundSingle = ofSteps x.isNegative
        (if twoPow 128 * unit ≤ roundRatio 24 925 x.steps 1 then twoPow 1024 * unit
          else roundRatio 24 925 x.steps 1) := by simp [roundSingle, hnan]
    rw [hround]
    split
    case isTrue =>
      have hunit : twoPow 1024 * unit = 1 * twoPow 2098 := by rw [Nat.one_mul, infinity_eq]
      rw [hunit]
      exact roundSingle_ofSteps _ (twoPow_pos 24) (by omega) (.inl hunit.symm)
    case isFalse hlt =>
      obtain ⟨q, k, hqk, hq, hk⟩ := roundRatio_eq_mul 24 925 x.steps
      rw [hqk] at hlt ⊢
      exact roundSingle_ofSteps _ hq hk (.inr (Nat.not_le.mp hlt))

end ProcLang.Double

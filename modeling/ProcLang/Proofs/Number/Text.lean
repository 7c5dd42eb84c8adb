import ProcLang.Proofs.Lexing.Spelling
import ProcLang.Proofs.Number.Shortest
import ProcLang.Proofs.Text.Numerals

/-!
# The text of a double reads back

The text of a decimal is digits, a point with digits behind it, and an order, some of them left out.
`Decimal.ofChars` reads such a text in whatever layout it is written, so that finite doubles with
the same text are equal.

## Main definitions

* `Decimal.ofChars` — the decimal that a text stands for.
* `Double.IsFinite` — doubles that stand for a number.

## Main statements

* `Layout.ofChars_decimal` — reading a written decimal gives it back.
* `Double.eq_of_text_eq` — finite doubles with the same text are equal.
* `Double.text_ne_toString` — a double is never written like a whole number.
-/
namespace ProcLang

open Double (tenPow)

/-! ## Reading decimals -/

/-- What stands before the first `c` and what stands behind it. -/
def cut (c : Char) (cs : List Char) : List Char × List Char :=
  (cs.takeWhile (· != c), (cs.dropWhile (· != c)).drop 1)

theorem cut_append {c : Char} {l : List Char} (h : c ∉ l) (r : List Char) :
    cut c (l ++ c :: r) = (l, r) := by
  obtain ⟨htake, hdrop⟩ := takeWhile_dropWhile_append (q := (· != c))
    (fun a ha => bne_iff_ne.mpr fun heq => h (heq ▸ ha)) (c :: r) (by simp)
  rw [cut, htake, hdrop, List.drop_one, List.tail_cons]

theorem cut_of_not_mem {c : Char} {l : List Char} (h : c ∉ l) : cut c l = (l, []) := by
  obtain ⟨htake, hdrop⟩ := takeWhile_dropWhile_append (q := (· != c))
    (fun a ha => bne_iff_ne.mpr fun heq => h (heq ▸ ha)) [] (by simp)
  rw [List.append_nil] at htake hdrop
  rw [cut, htake, hdrop, List.drop_nil]

/-- The whole number with the given digits, behind a sign if it is negative. -/
def ofSigned : List Char → Int
  | '-' :: digits => -(Nat.ofDigitChars 10 digits 0 : Nat)
  | digits => (Nat.ofDigitChars 10 digits 0 : Nat)

theorem ofSigned_toString (i : Int) : ofSigned (toString i).toList = i := by
  rw [toList_toString]
  split
  next hneg =>
    rw [ofSigned, Nat.ofDigitChars_ten_toDigits]
    omega
  next hneg =>
    unfold ofSigned
    split
    next heq => exact absurd heq toDigits_ne_cons
    next =>
      rw [Nat.ofDigitChars_ten_toDigits]
      omega

namespace Decimal

/-- The decimal that a text stands for: digits, at most one point, and an order behind an `e`. -/
def ofChars (cs : List Char) : Decimal :=
  let (mantissa, order) := cut 'e' cs
  let (whole, places) := cut '.' mantissa
  .trimZeros (Nat.ofDigitChars 10 (whole ++ places) 0) (ofSigned order - places.length)

/-- Zeros behind the digits count in the exponent. -/
theorem trimZeros_mul {n : Nat} (h : n % 10 ≠ 0) (e : Int) (j : Nat) :
    trimZeros (n * tenPow j) (e - j) = ⟨n, e⟩ := by
  induction j with
  | zero =>
    have hone : tenPow 0 = 1 := rfl
    rw [hone, Nat.mul_one, trimZeros, if_neg (by omega)]
    simp
  | succ j ih =>
    have hten : n * tenPow (j + 1) = n * tenPow j * 10 := by
      rw [Double.tenPow_add, ← Nat.mul_assoc]
      rfl
    have hpos : 0 < n * tenPow j := Nat.mul_pos (by omega) (Double.tenPow_pos j)
    rw [trimZeros, if_pos (by omega), hten, Nat.mul_div_cancel _ (by decide), ← ih]
    congr 1
    omega

/-- `Written cs n e` says that `cs` is a text of the number `n * 10 ^ e`: digits with a point among
them, with an order behind them, or both. -/
inductive Written : List Char → Nat → Int → Prop
  | positional {whole places : List Char} (hw : IsNumeral whole) (hp : IsNumeral places) :
      Written (whole ++ '.' :: places) (Nat.ofDigitChars 10 (whole ++ places) 0) (-places.length)
  | scientific {whole places : List Char} (hw : IsNumeral whole) (hp : IsNumeral places)
      (order : Int) : Written (whole ++ '.' :: places ++ 'e' :: (toString order).toList)
        (Nat.ofDigitChars 10 (whole ++ places) 0) (order - places.length)
  | round {whole : List Char} (hw : IsNumeral whole) (order : Int) :
      Written (whole ++ 'e' :: (toString order).toList) (Nat.ofDigitChars 10 whole 0) order

theorem Written.cast {cs : List Char} {n n' : Nat} {e e' : Int} (h : Written cs n e) (hn : n = n')
    (he : e = e') : Written cs n' e' := hn ▸ he ▸ h

theorem not_mem_of_isNumeral {cs : List Char} (h : IsNumeral cs) {c : Char}
    (hc : c.isDigit = false) : c ∉ cs :=
  fun hmem => Bool.false_ne_true (hc.symm.trans (h.2 c hmem))

theorem Written.ofChars_eq {cs : List Char} {n : Nat} {e : Int} (h : Written cs n e) :
    ofChars cs = .trimZeros n e := by
  cases h with
  | @positional whole places hw hp =>
    have hpoint : '.' ∉ whole := not_mem_of_isNumeral hw rfl
    have he : 'e' ∉ whole ++ '.' :: places := by
      simp [not_mem_of_isNumeral hw (c := 'e') rfl, not_mem_of_isNumeral hp (c := 'e') rfl]
    simp only [ofChars, cut_of_not_mem he, cut_append hpoint]
    simp [ofSigned]
  | @scientific whole places hw hp order =>
    have hpoint : '.' ∉ whole := not_mem_of_isNumeral hw rfl
    have he : 'e' ∉ whole ++ '.' :: places := by
      simp [not_mem_of_isNumeral hw (c := 'e') rfl, not_mem_of_isNumeral hp (c := 'e') rfl]
    simp only [ofChars, cut_append he, cut_append hpoint, ofSigned_toString]
  | @round whole hw order =>
    have hpoint : '.' ∉ whole := not_mem_of_isNumeral hw rfl
    have he : 'e' ∉ whole := not_mem_of_isNumeral hw rfl
    simp only [ofChars, cut_append he, cut_of_not_mem hpoint, ofSigned_toString]
    simp

variable {cs : List Char} {n : Nat} {e : Int}

theorem Written.start (h : Written cs n e) : ∃ c t, cs = c :: t ∧ c.isDigit = true := by
  have hfirst : ∀ {whole : List Char}, IsNumeral whole → ∀ rest, ∃ c t,
      whole ++ rest = c :: t ∧ c.isDigit = true := by
    intro whole hw rest
    obtain ⟨c, t, rfl⟩ := List.exists_cons_of_ne_nil hw.1
    exact ⟨c, t ++ rest, rfl, hw.2 c List.mem_cons_self⟩
  cases h with
  | positional hw hp => exact hfirst hw _
  | scientific hw hp order =>
    rw [List.append_assoc]
    exact hfirst hw _
  | round hw => exact hfirst hw _

theorem Written.mem (h : Written cs n e) {c : Char} (hc : c ∈ cs) :
    c.isDigit = true ∨ c = '.' ∨ c = 'e' ∨ c = '-' := by
  cases h with
  | positional hw hp =>
    have := hw.2 c
    have := hp.2 c
    grind
  | scientific hw hp order =>
    have := hw.2 c
    have := hp.2 c
    have := mem_toString (i := order) (c := c)
    grind
  | round hw =>
    have := hw.2 c
    have := mem_toString (i := e) (c := c)
    grind

theorem Written.marked (h : Written cs n e) : '.' ∈ cs ∨ 'e' ∈ cs := by
  cases h with
  | positional hw hp => simp
  | scientific hw hp order => simp
  | round hw => simp

end Decimal

/-! ## What is written -/

theorem isNumeral_toDigits (n : Nat) : IsNumeral (Nat.toDigits 10 n) :=
  ⟨Nat.toDigits_ne_nil, fun _ => isDigit_of_mem_toDigits⟩

theorem isDigit_of_mem_replicate {k : Nat} : ∀ c ∈ List.replicate k '0', c.isDigit = true :=
  fun _ hc => (List.mem_replicate.mp hc).2 ▸ rfl

theorem isNumeral_replicate (k : Nat) : IsNumeral (List.replicate (k + 1) '0') :=
  ⟨by simp, isDigit_of_mem_replicate⟩

theorem ofDigitChars_zeros_append (k n : Nat) :
    Nat.ofDigitChars 10 (List.replicate k '0' ++ Nat.toDigits 10 n) 0 = n := by
  rw [Nat.ofDigitChars_append, Nat.ofDigitChars_replicate_zero, Nat.mul_zero,
    Nat.ofDigitChars_ten_toDigits]

theorem ofDigitChars_append_zeros (k n : Nat) :
    Nat.ofDigitChars 10 (Nat.toDigits 10 n ++ List.replicate k '0') 0 = n * tenPow k := by
  rw [Nat.ofDigitChars_append, Nat.ofDigitChars_ten_toDigits, Nat.ofDigitChars_replicate_zero,
    Nat.mul_comm]
  rfl

namespace Layout

open Decimal (Written)

theorem positional_of_le {ds : List Char} {k : Nat} (h : ds.length ≤ k + 1) :
    positional ds (.ofNat k) =
      (ds ++ List.replicate (k + 1 - ds.length) '0') ++ '.' :: List.replicate 1 '0' := by
  simp [positional, List.take_of_length_le h, List.drop_of_length_le h]

theorem positional_of_lt {ds : List Char} {k : Nat} (h : k + 1 < ds.length) :
    positional ds (.ofNat k) = ds.take (k + 1) ++ '.' :: ds.drop (k + 1) := by
  have hne : ds.drop (k + 1) ≠ [] := by simpa using h
  have hlen : k + 1 - min (k + 1) ds.length = 0 := by omega
  simp [positional, hne, hlen]

/-- A decimal is written as itself, or with zeros behind its digits. -/
theorem written_positional (d : Decimal) : ∃ j : Nat,
    Written (positional (Nat.toDigits 10 d.digits) d.order) (d.digits * tenPow j)
      (d.exponent - j) := by
  obtain ⟨n, e⟩ := d
  obtain ⟨hne, hdigit⟩ := isNumeral_toDigits n
  have hpos : 0 < (Nat.toDigits 10 n).length := Nat.length_toDigits_pos
  have horder : (⟨n, e⟩ : Decimal).order = e + ((Nat.toDigits 10 n).length - 1 : Nat) := rfl
  cases ho : (⟨n, e⟩ : Decimal).order with
  | negSucc k =>
    -- All digits are places, behind `k` zeros.
    have hp : IsNumeral (List.replicate k '0' ++ Nat.toDigits 10 n) :=
      ⟨by simp, List.forall_mem_append.mpr ⟨isDigit_of_mem_replicate, hdigit⟩⟩
    refine ⟨0, (Written.positional (isNumeral_replicate 0) hp).cast ?_ ?_⟩
    · rw [← List.append_assoc, List.replicate_append_replicate, ofDigitChars_zeros_append]
      exact (Nat.mul_one n).symm
    · simp only [List.length_append, List.length_replicate]
      omega
  | ofNat k =>
    have hk : e + ((Nat.toDigits 10 n).length - 1 : Nat) = (k : Int) := ho
    by_cases hall : (Nat.toDigits 10 n).length ≤ k + 1
    · -- No digit is a place, and the zero behind the point is one more.
      have hw : IsNumeral (Nat.toDigits 10 n ++
          List.replicate (k + 1 - (Nat.toDigits 10 n).length) '0') :=
        ⟨by simp, List.forall_mem_append.mpr ⟨hdigit, isDigit_of_mem_replicate⟩⟩
      rw [positional_of_le hall]
      refine ⟨k + 1 - (Nat.toDigits 10 n).length + 1,
        (Written.positional hw (isNumeral_replicate 0)).cast ?_ ?_⟩
      · rw [List.append_assoc, List.replicate_append_replicate, ofDigitChars_append_zeros]
      · simp only [List.length_replicate]
        omega
    · have hlt : k + 1 < (Nat.toDigits 10 n).length := Nat.lt_of_not_le hall
      have hw : IsNumeral ((Nat.toDigits 10 n).take (k + 1)) :=
        ⟨by simp, fun c hc => hdigit c (List.mem_of_mem_take hc)⟩
      have hp : IsNumeral ((Nat.toDigits 10 n).drop (k + 1)) :=
        ⟨by simpa using hlt, fun c hc => hdigit c (List.mem_of_mem_drop hc)⟩
      rw [positional_of_lt hlt]
      refine ⟨0, (Written.positional hw hp).cast ?_ ?_⟩
      · rw [List.take_append_drop, Nat.ofDigitChars_ten_toDigits]
        exact (Nat.mul_one n).symm
      · simp only [List.length_drop]
        omega

theorem written_scientific (d : Decimal) :
    Written (scientific (Nat.toDigits 10 d.digits) d.order) d.digits d.exponent := by
  obtain ⟨n, e⟩ := d
  have hds := isNumeral_toDigits n
  have hvalue : Nat.ofDigitChars 10 (Nat.toDigits 10 n) 0 = n := Nat.ofDigitChars_ten_toDigits
  have horder : (⟨n, e⟩ : Decimal).order = e + ((Nat.toDigits 10 n).length - 1 : Nat) := rfl
  rw [horder]
  simp only
  generalize Nat.toDigits 10 n = ds at hds hvalue
  cases ds with
  | nil => exact absurd rfl hds.1
  | cons c ds =>
    cases ds with
    | nil => exact (Written.round hds _).cast hvalue (by simp)
    | cons c' ds =>
      have hw : IsNumeral [c] := ⟨by simp, fun a ha => hds.2 a (by simp_all)⟩
      have hp : IsNumeral (c' :: ds) := ⟨by simp, fun a ha => hds.2 a (List.mem_cons_of_mem c ha)⟩
      refine (Written.scientific hw hp _).cast hvalue ?_
      simp only [List.length_cons]
      omega

theorem exists_written (l : Layout) (d : Decimal) :
    ∃ j : Nat, Written (l.decimal d) (d.digits * tenPow j) (d.exponent - j) := by
  unfold decimal
  simp only
  split
  · exact written_positional d
  · exact ⟨0, (written_scientific d).cast (Nat.mul_one _).symm (by simp)⟩

/-- A decimal without trailing zeros is read as it was, in whatever layout it is written. -/
theorem ofChars_decimal (l : Layout) {d : Decimal} (h : d.digits % 10 ≠ 0) :
    Decimal.ofChars (l.decimal d) = d := by
  obtain ⟨j, hwritten⟩ := l.exists_written d
  rw [hwritten.ofChars_eq, Decimal.trimZeros_mul h]

end Layout

/-! ## Finite doubles -/

namespace Double

/-- A double that stands for a number. -/
def IsFinite (x : Double) : Prop := x.exponentBits ≠ 2047

instance (x : Double) : Decidable x.IsFinite := inferInstanceAs (Decidable (_ ≠ _))

/-- The decimal that the text of a finite double is made of. -/
def toDecimal (x : Double) : Decimal := if x.isZero then ⟨0, 0⟩ else x.shortest

variable {x y : Double}

theorem toList_text (h : x.IsFinite) : x.text.toList =
    if x.isNegative then '-' :: layout.decimal x.toDecimal else layout.decimal x.toDecimal := by
  have hfin : x.exponentBits ≠ 2047 := h
  have hmagnitude : layout.magnitude x = layout.decimal x.toDecimal := by
    unfold Layout.magnitude toDecimal
    split
    · rfl
    · rfl
  rw [text, Layout.text, hmagnitude]
  simp [isNaN, hfin]

theorem exists_written (x : Double) : ∃ n e, Decimal.Written (layout.decimal x.toDecimal) n e := by
  obtain ⟨j, h⟩ := layout.exists_written x.toDecimal
  exact ⟨_, _, h⟩

theorem text_start (h : x.IsFinite) :
    ∃ c cs, x.text.toList = c :: cs ∧ (c.isDigit = true ∨ c = '-') := by
  obtain ⟨n, e, hwritten⟩ := x.exists_written
  obtain ⟨c, cs, hcs, hc⟩ := hwritten.start
  rw [toList_text h]
  split
  · exact ⟨_, _, rfl, .inr rfl⟩
  · exact ⟨c, cs, hcs, .inl hc⟩

theorem mem_text (h : x.IsFinite) {c : Char} (hc : c ∈ x.text.toList) :
    c.isDigit = true ∨ c = '.' ∨ c = 'e' ∨ c = '-' := by
  obtain ⟨n, e, hwritten⟩ := x.exists_written
  rw [toList_text h] at hc
  split at hc
  · rcases List.mem_cons.mp hc with rfl | hc
    · exact .inr (.inr (.inr rfl))
    · exact hwritten.mem hc
  · exact hwritten.mem hc

/-- A double is never written like a whole number: it has a point or an order. -/
theorem text_ne_toString (h : x.IsFinite) (i : Int) : x.text ≠ toString i := by
  obtain ⟨n, e, hwritten⟩ := x.exists_written
  intro heq
  have hsub : ∀ c ∈ layout.decimal x.toDecimal, c ∈ (toString i).toList := by
    intro c hc
    rw [← heq, toList_text h]
    split
    · exact List.mem_cons_of_mem _ hc
    · exact hc
  rcases hwritten.marked with hmark | hmark
  · simpa [Char.isDigit] using mem_toString (hsub _ hmark)
  · simpa [Char.isDigit] using mem_toString (hsub _ hmark)

theorem isZero_iff : x.isZero = true ↔ x.exponentBits = 0 ∧ x.fractionBits = 0 := by
  have hscale := Nat.ne_of_gt (twoPow_pos x.scale)
  have hfull := Nat.ne_of_gt (twoPow_pos 52)
  rw [isZero, beq_iff_eq, steps, Nat.mul_eq_zero, or_iff_left hscale, significand]
  split <;> omega

theorem ofChars_of_isZero (h : x.isZero = true) :
    (Decimal.ofChars (layout.decimal x.toDecimal)).digits = 0 := by
  rw [toDecimal, if_pos h]
  decide +kernel

theorem ofChars_of_not_isZero (h : ¬ x.isZero = true) :
    Decimal.ofChars (layout.decimal x.toDecimal) = x.shortest ∧ x.shortest.digits ≠ 0 := by
  have hmod := shortest_digits_mod (x := x) (by simpa [isZero] using h)
  rw [toDecimal, if_neg h]
  exact ⟨layout.ofChars_decimal hmod, by omega⟩

/-- The sign of a finite double and its magnitude can be told from its text. -/
theorem decimal_eq_of_text_eq (hx : x.IsFinite) (hy : y.IsFinite) (heq : x.text = y.text) :
    x.isNegative = y.isNegative ∧ layout.decimal x.toDecimal = layout.decimal y.toDecimal := by
  have hsign : ∀ (z : Double) cs, layout.decimal z.toDecimal ≠ '-' :: cs := by
    intro z cs hcs
    obtain ⟨n, e, hwritten⟩ := z.exists_written
    obtain ⟨c, t, ht, hc⟩ := hwritten.start
    rw [hcs] at ht
    obtain ⟨rfl, -⟩ := List.cons.inj ht
    simp [Char.isDigit] at hc
  have hlist := congrArg String.toList heq
  rw [toList_text hx, toList_text hy] at hlist
  cases hsx : x.isNegative <;> cases hsy : y.isNegative <;> simp only [hsx, hsy] at hlist
  · exact ⟨rfl, hlist⟩
  · exact absurd hlist (hsign x _)
  · exact absurd hlist.symm (hsign y _)
  · exact ⟨rfl, (List.cons.inj hlist).2⟩

/-- Finite doubles with the same text are equal. -/
theorem eq_of_text_eq (hx : x.IsFinite) (hy : y.IsFinite) (heq : x.text = y.text) : x = y := by
  obtain ⟨hsign, hdecimal⟩ := decimal_eq_of_text_eq hx hy heq
  by_cases hzx : x.isZero = true
  · by_cases hzy : y.isZero = true
    · obtain ⟨hex, hfx⟩ := isZero_iff.mp hzx
      obtain ⟨hey, hfy⟩ := isZero_iff.mp hzy
      exact eq_of_fields hsign (hex.trans hey.symm) (hfx.trans hfy.symm)
    · obtain ⟨hshort, hne⟩ := ofChars_of_not_isZero hzy
      rw [← hshort, ← hdecimal] at hne
      exact absurd (ofChars_of_isZero hzx) hne
  · obtain ⟨hshort, hne⟩ := ofChars_of_not_isZero hzx
    by_cases hzy : y.isZero = true
    · rw [← hshort, hdecimal] at hne
      exact absurd (ofChars_of_isZero hzy) hne
    · have heq : x.shortest = y.shortest := by
        rw [← hshort, hdecimal, (ofChars_of_not_isZero hzy).1]
      exact eq_of_shortest_eq (by simpa [isZero] using hzx) (by simpa [isZero] using hzy) hsign heq

end Double
end ProcLang

import ProcLang.Number.Layout
import ProcLang.Proofs.Text.Words

/-!
# Numbers in texts

Numbers are written as words, and different numbers differently: whole numbers in decimal, doubles
by their bits.

## Main statements

* `eq_of_toString_eq` — whole numbers with the same text are equal.
* `Double.eq_of_hex_eq` — doubles with the same bits in hexadecimal are equal.
-/
namespace ProcLang

/-! ## Decimal -/

theorem isMark_eq_false_of_isDigit {c : Char} (h : c.isDigit = true) : isMark c = false := by
  apply Bool.eq_false_iff.mpr
  intro hm
  have hmem : c = ' ' ∨ c = ',' ∨ c = '(' ∨ c = ')' ∨ c = '\n' := by simpa [isMark] using hm
  rcases hmem with rfl | rfl | rfl | rfl | rfl <;> simp [Char.isDigit] at h

theorem isDigit_of_mem_toDigits {n : Nat} {c : Char} (h : c ∈ Nat.toDigits 10 n) :
    c.isDigit = true := Nat.isDigit_of_mem_toDigits (by decide) (by decide) h

theorem toDigits_inj {n m : Nat} (h : Nat.toDigits 10 n = Nat.toDigits 10 m) : n = m := by
  have hvalue := congrArg (fun ds => Nat.ofDigitChars 10 ds 0) h
  simpa using hvalue

/-- A whole number is written as its digits, behind a sign if it is negative. -/
theorem toList_toString (i : Int) : (toString i).toList =
    if i < 0 then '-' :: Nat.toDigits 10 i.natAbs else Nat.toDigits 10 i.natAbs := by
  cases i with
  | ofNat n =>
    change (Nat.repr n).toList = _
    simp
  | negSucc n =>
    change ("-" ++ Nat.repr (n + 1)).toList = _
    simp [Int.negSucc_lt_zero]

theorem mem_toString {i : Int} {c : Char} (h : c ∈ (toString i).toList) :
    c.isDigit = true ∨ c = '-' := by
  rw [toList_toString] at h
  split at h
  · rcases List.mem_cons.mp h with rfl | h
    · exact .inr rfl
    · exact .inl (isDigit_of_mem_toDigits h)
  · exact .inl (isDigit_of_mem_toDigits h)

/-- Digits do not start with a sign. -/
theorem toDigits_ne_cons {n : Nat} {cs : List Char} : Nat.toDigits 10 n ≠ '-' :: cs := by
  intro h
  have hdigit : ('-').isDigit = true := isDigit_of_mem_toDigits (h ▸ List.mem_cons_self)
  simp [Char.isDigit] at hdigit

theorem eq_of_toString_eq {i j : Int} (h : toString i = toString j) : i = j := by
  have h := congrArg String.toList h
  rw [toList_toString, toList_toString] at h
  split at h
  next hi =>
    split at h
    next hj =>
      have := toDigits_inj (List.cons.inj h).2
      omega
    next hj => exact absurd h.symm toDigits_ne_cons
  next hi =>
    split at h
    next hj => exact absurd h toDigits_ne_cons
    next hj =>
      have := toDigits_inj h
      omega

theorem isWord_toString (i : Int) : IsWord (toString i) := by
  intro c hc
  rcases mem_toString hc with hd | rfl
  · exact isMark_eq_false_of_isDigit hd
  · rfl

/-! ## Hexadecimal -/

/-- The value of a hexadecimal digit in upper case. -/
def hexValue (c : Char) : Nat := if c.isDigit then c.toNat - 48 else c.toNat - 55

/-- The number of hexadecimal digits in upper case. -/
def ofHex (cs : List Char) : Nat := cs.foldl (fun n c => 16 * n + hexValue c) 0

theorem hexValue_digitChar : ∀ d < 16, hexValue (Nat.digitChar d).toUpper = d := by decide

theorem ofHex_toDigits (n : Nat) : ofHex ((Nat.toDigits 16 n).map Char.toUpper) = n := by
  induction n using Nat.strongRecOn with
  | ind n ih =>
    rw [Nat.toDigits_eq_if (by decide)]
    split
    next h => simp [ofHex, hexValue_digitChar n h]
    next h =>
      have hdiv : ofHex ((Nat.toDigits 16 (n / 16)).map Char.toUpper) = n / 16 := ih _ (by omega)
      rw [ofHex] at hdiv
      rw [ofHex, List.map_append, List.foldl_append, hdiv, List.map_singleton, List.foldl_cons,
        List.foldl_nil, hexValue_digitChar _ (Nat.mod_lt _ (by decide))]
      omega

theorem ofHex_replicate_append (k : Nat) (cs : List Char) :
    ofHex (List.replicate k '0' ++ cs) = ofHex cs := by
  induction k with
  | zero => rfl
  | succ k ih => exact ih

/-- The digits of a double after `0x`, with zeros in front. -/
theorem Double.toList_hex (x : Double) : ∃ k, x.hex.toList =
    '0' :: 'x' :: (List.replicate k '0' ++ (Nat.toDigits 16 x.bits.toNat).map Char.toUpper) := by
  refine ⟨16 - ((Nat.toDigits 16 x.bits.toNat).map Char.toUpper).length, ?_⟩
  simp [Double.hex]

theorem Double.eq_of_hex_eq {x y : Double} (h : x.hex = y.hex) : x = y := by
  obtain ⟨k, hx⟩ := x.toList_hex
  obtain ⟨l, hy⟩ := y.toList_hex
  rw [h, hy] at hx
  have hdigits := congrArg ofHex (List.cons.inj (List.cons.inj hx).2).2
  rw [ofHex_replicate_append, ofHex_replicate_append, ofHex_toDigits, ofHex_toDigits] at hdigits
  cases x
  cases y
  exact congrArg Double.mk (UInt64.toNat_inj.mp hdigits.symm)

theorem exists_of_mem_toDigits {n : Nat} {c : Char} (h : c ∈ Nat.toDigits 16 n) :
    ∃ d < 16, c = Nat.digitChar d := by
  induction n using Nat.strongRecOn with
  | ind n ih =>
    rw [Nat.toDigits_eq_if (by decide)] at h
    split at h
    next hn => exact ⟨n, hn, List.mem_singleton.mp h⟩
    next hn =>
      rcases List.mem_append.mp h with h | h
      · exact ih _ (by omega) h
      · exact ⟨n % 16, Nat.mod_lt _ (by decide), List.mem_singleton.mp h⟩

theorem isMark_digitChar : ∀ d < 16, isMark (Nat.digitChar d).toUpper = false := by decide

theorem Double.isWord_hex (x : Double) : IsWord x.hex := by
  obtain ⟨k, hx⟩ := x.toList_hex
  intro c hc
  rw [hx] at hc
  simp only [List.mem_cons, List.mem_append, List.mem_replicate, List.mem_map] at hc
  rcases hc with rfl | rfl | ⟨-, rfl⟩ | ⟨d, hd, rfl⟩
  · rfl
  · rfl
  · rfl
  · obtain ⟨d, hlt, rfl⟩ := exists_of_mem_toDigits hd
    exact isMark_digitChar d hlt

end ProcLang

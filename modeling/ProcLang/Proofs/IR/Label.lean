import ProcLang.IR.Function

/-!
# Labels of blocks

The label of a block ends with the index of the block. Two labels with different indices differ,
whatever stands before the point, so a label leads back to its block.
-/
namespace ProcLang.IR

/-- The label of the block of index `i`. -/
def blockLabel (base : String) (i : Nat) : String := s!"{base}.{i}"

/-- The digits behind the last point of a text. -/
def lastDigits (text : String) : List Char := (text.toList.reverse.takeWhile Char.isDigit).reverse

theorem entryLabel_eq : Function.entryLabel = blockLabel "entry" 0 := by decide

theorem toList_blockLabel (base : String) (i : Nat) :
    (blockLabel base i).toList = base.toList ++ '.' :: Nat.toDigits 10 i := by
  change (base ++ "." ++ toString i).toList = _
  simp

theorem lastDigits_blockLabel (base : String) (i : Nat) :
    lastDigits (blockLabel base i) = Nat.toDigits 10 i := by
  have digits : ∀ c ∈ (Nat.toDigits 10 i).reverse, c.isDigit := by
    intro c hc
    exact Nat.isDigit_of_mem_toDigits (by decide) (by decide) (List.mem_reverse.mp hc)
  rw [lastDigits, toList_blockLabel]
  simp only [List.reverse_append, List.reverse_cons, List.append_assoc, List.singleton_append]
  rw [List.takeWhile_append_of_pos digits]
  simp

theorem blockLabel_index {base base' : String} {i j : Nat}
    (h : blockLabel base i = blockLabel base' j) : i = j := by
  have hd : Nat.toDigits 10 i = Nat.toDigits 10 j := by
    rw [← lastDigits_blockLabel base i, h, lastDigits_blockLabel]
  have hn := congrArg (fun ds => Nat.ofDigitChars 10 ds 0) hd
  simpa using hn

theorem blockLabel_inj {base base' : String} {i j : Nat}
    (h : blockLabel base i = blockLabel base' j) : base = base' ∧ i = j := by
  obtain rfl := blockLabel_index h
  have h := congrArg String.toList h
  rw [toList_blockLabel, toList_blockLabel] at h
  exact ⟨String.toList_inj.mp (List.append_cancel_right h), rfl⟩

/-- The labels of blocks end with `n`, `n + 1` and so on. -/
def LabelledFrom : Nat → List Block → Prop
  | _, [] => True
  | n, b :: bs => (∃ base, b.label = blockLabel base n) ∧ LabelledFrom (n + 1) bs

theorem LabelledFrom.append {n n' : Nat} {bs bs' : List Block} (h : LabelledFrom n bs)
    (hn : n' = n + bs.length) (h' : LabelledFrom n' bs') : LabelledFrom n (bs ++ bs') := by
  induction bs generalizing n with
  | nil => simpa [hn] using h'
  | cons b bs ih => exact ⟨h.1, ih h.2 (by simp [hn]; omega)⟩

theorem LabelledFrom.getElem? {n i : Nat} {bs : List Block} {b : Block} (h : LabelledFrom n bs)
    (hb : bs[i]? = some b) : ∃ base, b.label = blockLabel base (n + i) := by
  induction bs generalizing n i with
  | nil => simp at hb
  | cons b' bs ih =>
    cases i with
    | zero =>
      cases hb
      exact h.1
    | succ i =>
      have hn : n + (i + 1) = n + 1 + i := by omega
      rw [hn]
      exact ih h.2 hb

namespace Function

/-- Every label ends with the index of its block. -/
def Labelled (f : Function) : Prop :=
  ∀ i b, f.blocks[i]? = some b → ∃ base, b.label = blockLabel base i

theorem Labelled.index {f : Function} (h : f.Labelled) {i j : Nat} {b b' : Block}
    (hi : f.blocks[i]? = some b) (hj : f.blocks[j]? = some b') (hl : b.label = b'.label) :
    i = j := by
  obtain ⟨base, hb⟩ := h i b hi
  obtain ⟨base', hb'⟩ := h j b' hj
  exact blockLabel_index (hb.symm.trans (hl.trans hb'))

theorem Labelled.nodup {f : Function} (h : f.Labelled) : (f.blocks.map (·.label)).Nodup := by
  rw [List.Nodup, List.pairwise_iff_getElem]
  intro i j hi hj hij heq
  simp only [List.length_map] at hi hj
  simp only [List.getElem_map] at heq
  have := h.index (List.getElem?_eq_getElem hi) (List.getElem?_eq_getElem hj) heq
  omega

theorem Labelled.blockOf? {f : Function} (h : f.Labelled) {i : Nat} {b : Block}
    (hb : f.blocks[i]? = some b) : f.blockOf? b.label = some b := by
  obtain ⟨hi, hget⟩ := List.getElem?_eq_some_iff.mp hb
  refine List.find?_eq_some_iff_getElem.mpr ⟨by simp, i, hi, hget, ?_⟩
  intro j hj
  have hne : f.blocks[j].label ≠ b.label := by
    intro hl
    have hij := h.index (List.getElem?_eq_getElem (by omega)) hb hl
    omega
  simpa using hne

end Function
end ProcLang.IR

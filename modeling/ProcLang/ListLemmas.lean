/-!
# Lists

Taking a stretch off the front of a list, where it ends, and how much shorter the rest is.
-/
namespace ProcLang

theorem length_dropWhile_le {α : Type} (p : α → Bool) (l : List α) :
    (l.dropWhile p).length ≤ l.length := (List.dropWhile_suffix p).length_le

theorem length_lt_of_dropWhile {α : Type} {p : α → Bool} {l rest : List α} {a : α}
    (h : l.dropWhile p = a :: rest) : rest.length < l.length := by
  have := length_dropWhile_le p l
  simp only [h, List.length_cons] at this
  omega

theorem head_of_dropWhile {α : Type} {p : α → Bool} {l rest : List α} {a : α}
    (h : l.dropWhile p = a :: rest) : p a = false := by
  have := List.head?_dropWhile_not p l
  rwa [h] at this

theorem eq_append_of_dropWhile {α : Type} {p : α → Bool} {l rest : List α}
    (h : l.dropWhile p = rest) : l = l.takeWhile p ++ rest := by
  rw [← h, List.takeWhile_append_dropWhile]

theorem forall_mem_takeWhile {α : Type} (p : α → Bool) (l : List α) :
    ∀ a ∈ l.takeWhile p, p a = true := List.all_eq_true.mp List.all_takeWhile

/-- A list is cut where `q` first fails. -/
theorem takeWhile_dropWhile_append {α : Type} {q : α → Bool} {as : List α}
    (ha : ∀ a ∈ as, q a = true) (bs : List α) (hb : ∀ b ∈ bs.head?, q b = false) :
    (as ++ bs).takeWhile q = as ∧ (as ++ bs).dropWhile q = bs := by
  rw [List.takeWhile_append_of_pos ha, List.dropWhile_append_of_pos ha]
  cases bs with
  | nil => simp
  | cons b bs =>
    have hq : q b = false := hb b (by simp)
    simp [hq]

/-- A function that tells apart what `P` holds of tells lists of it apart. -/
theorem map_inj_of_forall {α β : Type} {P : α → Prop} {f : α → β}
    (hf : ∀ {a b}, P a → P b → f a = f b → a = b) {as bs : List α} (ha : ∀ a ∈ as, P a)
    (hb : ∀ b ∈ bs, P b) (h : as.map f = bs.map f) : as = bs := by
  induction as generalizing bs with
  | nil => simpa using h.symm
  | cons a as ih =>
    cases bs with
    | nil => simp at h
    | cons b bs =>
      obtain ⟨hpa, has⟩ := List.forall_mem_cons.mp ha
      obtain ⟨hpb, hbs⟩ := List.forall_mem_cons.mp hb
      obtain ⟨hab, hrest⟩ := List.cons.inj h
      rw [hf hpa hpb hab, ih has hbs hrest]

end ProcLang

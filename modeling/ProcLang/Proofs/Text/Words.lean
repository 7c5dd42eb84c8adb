import ProcLang.ListLemmas
import ProcLang.Text.Dump

/-!
# Texts as words

A text in which a mark stands behind every word can be cut into its words in one way only, so that
two such texts are equal only if they have the same words. Larger texts are put together from parts
that tell where they end; whatever follows them, such a part can be told from what follows.

## Main definitions

* `Words` — words, each with the mark behind it.
* `Words.chars` — the text that words make.
* `Words.listed` — the words of a list in parentheses.

## Main statements

* `Words.eq_of_chars_eq` — a text has one list of words only.
* `intercalate_append_inj` — parts with separators between them can be told apart.
-/
namespace ProcLang

/-- The characters that end a word. -/
def isMark (c : Char) : Bool := [' ', ',', '(', ')', '\n'].contains c

/-- A text without marks. -/
def IsWord (s : String) : Prop := ∀ c ∈ s.toList, isMark c = false

instance (s : String) : Decidable (IsWord s) :=
  List.decidableBAll (fun c => isMark c = false) s.toList

@[simp] theorem isWord_append {s t : String} : IsWord (s ++ t) ↔ IsWord s ∧ IsWord t := by
  simp [IsWord, or_imp, forall_and]

/-- Words, each with the mark behind it. -/
abbrev Words : Type := List (String × Char)

namespace Words

/-- The text that words make. -/
def chars (ws : Words) : List Char := ws.flatMap fun w => w.1.toList ++ [w.2]

/-- The marks are marks, and the words have none. -/
def Clear (ws : Words) : Prop := ∀ w ∈ ws, IsWord w.1 ∧ isMark w.2 = true

@[simp] theorem chars_nil : chars [] = [] := rfl

@[simp] theorem chars_cons (w : String × Char) (ws : Words) :
    chars (w :: ws) = w.1.toList ++ w.2 :: chars ws := by
  simp [chars]

@[simp] theorem chars_append (ws ws' : Words) : chars (ws ++ ws') = chars ws ++ chars ws' := by
  simp [chars]

@[simp] theorem clear_nil : Clear [] := by simp [Clear]

@[simp] theorem clear_cons {w : String × Char} {ws : Words} :
    Clear (w :: ws) ↔ (IsWord w.1 ∧ isMark w.2 = true) ∧ Clear ws := by
  simp [Clear]

@[simp] theorem clear_append {ws ws' : Words} : Clear (ws ++ ws') ↔ Clear ws ∧ Clear ws' :=
  List.forall_mem_append

theorem cons_inj {t t' : String} {m m' : Char} {ws ws' : Words}
    (h : (t, m) :: ws = (t', m') :: ws') : t = t' ∧ m = m' ∧ ws = ws' := by
  simpa [and_assoc] using h

/-- The words of a text are cut off where its marks stand. -/
theorem eq_of_chars_eq {ws ws' : Words} (h : ws.Clear) (h' : ws'.Clear)
    (heq : ws.chars = ws'.chars) : ws = ws' := by
  induction ws generalizing ws' with
  | nil =>
    cases ws' with
    | nil => rfl
    | cons w' ws' => simp at heq
  | cons w ws ih =>
    cases ws' with
    | nil => simp at heq
    | cons w' ws' =>
      obtain ⟨⟨hw, hm⟩, h⟩ := clear_cons.mp h
      obtain ⟨⟨hw', hm'⟩, h'⟩ := clear_cons.mp h'
      obtain ⟨htake, hdrop⟩ := takeWhile_dropWhile_append (q := fun c => !isMark c)
        (by simpa [IsWord] using hw) (w.2 :: chars ws) (by simpa using hm)
      obtain ⟨htake', hdrop'⟩ := takeWhile_dropWhile_append (q := fun c => !isMark c)
        (by simpa [IsWord] using hw') (w'.2 :: chars ws') (by simpa using hm')
      rw [chars_cons, chars_cons] at heq
      rw [heq, htake'] at htake
      rw [heq, hdrop'] at hdrop
      obtain ⟨hmark, hrest⟩ := List.cons.inj hdrop
      have hword : w = w' := Prod.ext (String.toList_inj.mp htake.symm) hmark.symm
      rw [hword, ih h h' hrest.symm]

theorem chars_flatMap {α : Type} (l : List α) (f : α → Words) :
    chars (l.flatMap f) = l.flatMap fun a => chars (f a) := by
  induction l with
  | nil => rfl
  | cons a l ih => simp [ih]

/-- Parts with an empty line between two of them. -/
def apart (parts : List Words) : Words := [("", '\n')].intercalate parts

theorem chars_apart (parts : List Words) :
    (apart parts).chars = ['\n'].intercalate (parts.map chars) := by
  unfold apart
  induction parts with
  | nil => rfl
  | cons p parts ih =>
    cases parts with
    | nil => simp
    | cons p' parts =>
      rw [List.intercalate_cons_cons, chars_append, chars_append, ih]
      simp [List.intercalate_cons_cons]

theorem clear_apart {parts : List Words} (h : ∀ p ∈ parts, p.Clear) : (apart parts).Clear := by
  unfold apart
  induction parts with
  | nil => exact clear_nil
  | cons p parts ih =>
    obtain ⟨hp, h⟩ := List.forall_mem_cons.mp h
    cases parts with
    | nil => simpa using hp
    | cons p' parts =>
      rw [List.intercalate_cons_cons, clear_append, clear_append]
      exact ⟨⟨hp, by simp [IsWord, isMark]⟩, ih h⟩

/-- The words of a list, each entry a type and a name, up to the parenthesis that closes it. -/
def listed : List (String × String) → Words
  | [] => [("", ')')]
  | [e] => [(e.1, ' '), (e.2, ')')]
  | e :: e' :: es => (e.1, ' ') :: (e.2, ',') :: ("", ' ') :: listed (e' :: es)

theorem chars_listed (es : List (String × String)) : (listed es).chars =
    (Dump.separated (es.map fun e => e.1 ++ " " ++ e.2)).toList ++ [')'] := by
  fun_induction listed es with
  | case1 => simp [Dump.separated]
  | case2 e => simp [Dump.separated]
  | case3 e e' es ih =>
    simp only [chars_cons, ih]
    simp [Dump.separated, String.intercalate_cons_cons]

theorem clear_listed {es : List (String × String)} (h : ∀ e ∈ es, IsWord e.1 ∧ IsWord e.2) :
    (listed es).Clear := by
  fun_induction listed es with
  | case1 => simp [IsWord, isMark]
  | case2 e => simpa [isMark] using h
  | case3 e e' es ih =>
    obtain ⟨⟨hty, hname⟩, h⟩ := List.forall_mem_cons.mp h
    simp only [clear_cons]
    exact ⟨⟨hty, rfl⟩, ⟨hname, rfl⟩, ⟨by simp [IsWord], rfl⟩, ih h⟩

/-- A list tells where it ends. -/
theorem listed_append_inj {es es' : List (String × String)} {s s' : Words}
    (h : listed es ++ s = listed es' ++ s') : es = es' ∧ s = s' := by
  fun_induction listed es generalizing es' with
  | case1 => fun_cases listed es' <;> simp_all [listed]
  | case2 e => fun_cases listed es' <;> simp_all [listed, Prod.ext_iff]
  | case3 e e' es ih =>
    fun_cases listed es' with
    | case1 | case2 => simp_all [listed]
    | case3 f f' fs =>
      simp only [listed, List.cons_append, List.cons.injEq, Prod.mk.injEq, and_true, true_and] at h
      obtain ⟨hty, hname, h⟩ := h
      obtain ⟨hes, hs⟩ := ih h
      exact ⟨by rw [hes, Prod.ext hty hname], hs⟩

end Words

/-- Parts that tell where they end, with separators between them and a stop behind the last one, can
be told apart if no part starts like the stop. -/
theorem intercalate_append_inj {α β : Type} {P : α → Prop} {enc : α → List β} {sep stop : β}
    (hsep : sep ≠ stop)
    (henc : ∀ {x y s s'}, P x → P y → enc x ++ s = enc y ++ s' → x = y ∧ s = s')
    (hstart : ∀ {x s s'}, P x → enc x ++ s ≠ stop :: s') {xs ys : List α} (hx : ∀ x ∈ xs, P x)
    (hy : ∀ y ∈ ys, P y) {s s' : List β} (h : [sep].intercalate (xs.map enc) ++ stop :: s =
      [sep].intercalate (ys.map enc) ++ stop :: s') : xs = ys ∧ s = s' := by
  -- Behind a part there is a separator or the stop.
  have hfirst : ∀ x l (t : List β), ∃ t', [sep].intercalate ((x :: l).map enc) ++ t = enc x ++ t' ∧
      (l = [] → t' = t) ∧ (l ≠ [] → t' = sep :: ([sep].intercalate (l.map enc) ++ t)) := by
    intro x l t
    cases l with
    | nil => exact ⟨t, by simp, by simp, by simp⟩
    | cons y l => exact ⟨_, by simp [List.intercalate_cons_cons], by simp, fun _ => rfl⟩
  induction xs generalizing ys with
  | nil =>
    cases ys with
    | nil => exact ⟨rfl, by simpa using h⟩
    | cons y ys =>
      obtain ⟨t', ht', -⟩ := hfirst y ys (stop :: s')
      rw [ht'] at h
      exact absurd h.symm (hstart (hy y List.mem_cons_self))
  | cons x xs ih =>
    cases ys with
    | nil =>
      obtain ⟨t, ht, -⟩ := hfirst x xs (stop :: s)
      rw [ht] at h
      exact absurd h (hstart (hx x List.mem_cons_self))
    | cons y ys =>
      obtain ⟨hpx, hpxs⟩ := List.forall_mem_cons.mp hx
      obtain ⟨hpy, hpys⟩ := List.forall_mem_cons.mp hy
      obtain ⟨t, ht, hnil, hcons⟩ := hfirst x xs (stop :: s)
      obtain ⟨t', ht', hnil', hcons'⟩ := hfirst y ys (stop :: s')
      rw [ht, ht'] at h
      obtain ⟨rfl, hrest⟩ := henc hpx hpy h
      by_cases hxs : xs = []
      · by_cases hys : ys = []
        · rw [hnil hxs, hnil' hys] at hrest
          exact ⟨by rw [hxs, hys], (List.cons.inj hrest).2⟩
        · rw [hnil hxs, hcons' hys] at hrest
          exact absurd (List.cons.inj hrest).1.symm hsep
      · by_cases hys : ys = []
        · rw [hcons hxs, hnil' hys] at hrest
          exact absurd (List.cons.inj hrest).1 hsep
        · rw [hcons hxs, hcons' hys] at hrest
          obtain ⟨hl, hs⟩ := ih hpxs hpys (List.cons.inj hrest).2
          exact ⟨by rw [hl], hs⟩

end ProcLang

import Mathlib.Data.List.Forall2
import ProcLang.Scope

/-!
# What names mean

Things with different names are found by their names. In scopes, opening a scope changes no meaning;
binding a name changes the meaning of that name only, and the bindings of outer scopes stay.
-/
namespace ProcLang

section Names

variable {α β γ : Type} {name : α → String} {l : List α}

theorem find?_name (h : (l.map name).Nodup) {a : α} (ha : a ∈ l) :
    l.find? (name · == name a) = some a := by
  induction l with
  | nil => cases ha
  | cons b l ih =>
    obtain ⟨hnot, h⟩ := List.nodup_cons.mp h
    rcases List.mem_cons.mp ha with rfl | ha
    · simp
    · have hne : name b ≠ name a := fun heq => hnot (heq ▸ List.mem_map_of_mem ha)
      rw [List.find?_cons_of_neg (by simpa using hne)]
      exact ih h ha

theorem exists_of_forall₂ {R : α → β → Prop} {bs : List β} (h : List.Forall₂ R l bs) {a : α}
    (ha : a ∈ l) : ∃ b ∈ bs, R a b := by
  induction h with
  | nil => cases ha
  | @cons a' b _ bs hab _ ih =>
    rcases List.mem_cons.mp ha with rfl | ha
    · exact ⟨b, List.mem_cons_self, hab⟩
    · obtain ⟨b', hb', hab'⟩ := ih ha
      exact ⟨b', List.mem_cons_of_mem _ hb', hab'⟩

/-- What is given to things one by one is found again by their names. -/
theorem lookup_name {R : α → β → Prop} {bs : List β} (h : (l.map name).Nodup)
    (hR : List.Forall₂ R l bs) (f : β → γ) : List.Forall₂
      (fun a b => ((l.map name).zip (bs.map f)).lookup (name a) = some (f b) ∧ R a b) l bs := by
  induction hR with
  | nil => exact .nil
  | @cons a b l bs hab hR ih =>
    obtain ⟨hnot, h⟩ := List.nodup_cons.mp h
    have hne : ∀ c ∈ l, (name c == name a) = false := by
      intro c hc
      have : name c ≠ name a := fun heq => hnot (heq ▸ List.mem_map_of_mem hc)
      simpa using this
    refine .cons ⟨by simp, hab⟩ ?_
    refine ((List.forall₂_and_left l bs).mpr ⟨hne, ih h⟩).imp ?_
    rintro c d ⟨hc, hd, hcd⟩
    refine ⟨?_, hcd⟩
    rwa [List.map_cons, List.map_cons, List.zip_cons_cons, List.lookup_cons, hc]

end Names

namespace Scopes

variable {α : Type}

@[simp] theorem lookup?_push (s : Scopes α) (name : String) :
    s.push.lookup? name = s.lookup? name := by
  simp [lookup?, all, push, List.findSome?_cons]

theorem lookup?_global (g : Scope α) (name : String) :
    (⟨[], g⟩ : Scopes α).lookup? name = g.lookup name := by
  cases h : g.lookup name <;> simp [lookup?, all, h]

theorem lookup?_insert (s : Scopes α) (name other : String) (a : α) :
    (s.insert name a).lookup? other = if other = name then some a else s.lookup? other := by
  by_cases h : other = name
  · subst h
    unfold insert
    split <;> simp [lookup?, all, *]
  · have hb : (other == name) = false := beq_false_of_ne h
    unfold insert
    split <;> simp [lookup?, all, *, List.findSome?_cons, List.lookup_cons]

theorem inner_insert_ne_nil {s : Scopes α} (h : s.inner ≠ []) (name : String) (a : α) :
    (s.insert name a).inner ≠ [] := by
  unfold insert
  split <;> simp_all

theorem pop_insert {s : Scopes α} (h : s.inner ≠ []) (name : String) (a : α) :
    (s.insert name a).pop = s.pop := by
  unfold insert
  split <;> simp_all [pop]

end Scopes
end ProcLang

import Mathlib.Data.List.Induction
import ProcLang.Proofs.IR.Change

/-!
# Runs of changes

Whatever changes are made to an empty module, in whatever order and whether they succeed or fail,
the module that comes of them is well built. Each way in which a block ends has been asked for, and
a branch leads to the block whose index was given.

## Main definitions

* `Module.applyAll` — a module after changes.
* `Module.Effect` — what a change does to a module and what it hands back.
* `Module.Change` — all that a change can do to a module.
* `Module.Makes` — a change that succeeds in the course of others.
* `Module.BuiltBy` — what holds of a module whatever changes have been made to it.

## Main statements

* `Module.builtBy_applyAll`.
-/
namespace ProcLang.IR.Module

/-- A module after a change. A change that fails leaves it as it was. -/
def apply (m : Module) (e : Edit) : Module :=
  match m.edit e with
  | .ok (_, m') => m'
  | .error _ => m

/-- A module after changes. -/
def applyAll (m : Module) (es : List Edit) : Module := es.foldl apply m

/-- The change `e` is one of the changes `es` to `m`, and it succeeds. -/
def Makes (m : Module) (es : List Edit) (e : Edit) : Prop :=
  ∃ before after o m', es = before ++ e :: after ∧ (m.applyAll before).edit e = .ok (o, m')

/-- `m'` has the functions of `m`, and all that they have. -/
def Keeps (m m' : Module) : Prop :=
  ∀ (id : Nat) (f : Function), m.functions[id]? = some f →
    ∃ f', m'.functions[id]? = some f' ∧ f.Keeps f'

/-- What holds of a module `m` that the changes `es` have made of `m₀`. -/
structure BuiltBy (m₀ : Module) (es : List Edit) (m : Module) : Prop where
  lookup : ∀ name i, m.lookup? name = some i ↔ ∃ f, m.functions[i]? = some f ∧ f.name = name
  names : (m.functions.map (·.name)).Nodup
  functions : ∀ f ∈ m.functions, f.WellBuilt
  /-- A label stands for one block, and leads to it. -/
  labels : ∀ f ∈ m.functions, (f.blocks.map (·.label)).Nodup ∧
    ∀ b ∈ f.blocks, f.blockOf? b.label = some b
  /-- Blocks end as it has been asked for. -/
  requested : ∀ (id : Nat) (f : Function) (b : Nat) (t : Terminator), m.functions[id]? = some f →
    f.EndsWith b t → ∃ e, m₀.Makes es (.function id e) ∧ e.Ends f b t
  /-- Nothing that was there at some time has been taken away. -/
  kept : ∀ before after, es = before ++ after → (m₀.applyAll before).Keeps m

/-! ## Changes -/

/-- `m.Effect e o m'`: the change `e` hands back `o` and makes `m'` of the module `m`. -/
inductive Effect (m : Module) : Edit → Outcome → Module → Prop where
  | addFunction {name : String} {ret : Ty} (h : m.lookup? name = none) :
      Effect m (.addFunction name ret) (.function m.functions.length)
        { m with functions := m.functions ++ [.empty name ret] }
  | function {id : Nat} {e : Function.Edit} {o : Outcome} {f f' : Function}
      (h : m.functions[id]? = some f) (he : f.Effect e o f') :
      Effect m (.function id e) o (m.setFunction id f')

/-- `m.Change e m'`: the change `e` makes `m'` of the module `m`. -/
inductive Change (m : Module) : Edit → Module → Prop where
  | addFunction {name : String} {ret : Ty} (h : m.lookup? name = none) :
      Change m (.addFunction name ret) { m with functions := m.functions ++ [.empty name ret] }
  | function {id : Nat} {e : Function.Edit} {f f' : Function} (h : m.functions[id]? = some f)
      (hs : f.Change e f') : Change m (.function id e) (m.setFunction id f')

variable {m m' : Module} {e : Edit}

theorem effect_of_edit {o : Outcome} (h : m.edit e = .ok (o, m')) : m.Effect e o m' := by
  cases e with
  | addFunction name ret =>
    simp only [edit, addFunction] at h
    cases hl : m.lookup? name with
    | some i => simp [hl, Except.map] at h
    | none =>
      simp only [hl, Except.map, Except.ok.injEq, Prod.mk.injEq] at h
      obtain ⟨rfl, rfl⟩ := h
      exact .addFunction hl
  | function id e =>
    simp only [edit, function] at h
    cases hf : m.functions[id]? with
    | none => simp [hf] at h
    | some f =>
      cases he : f.edit e with
      | error err => simp [hf, he, Except.map] at h
      | ok x =>
        simp only [hf, he, Except.map, Except.ok.injEq, Prod.mk.injEq] at h
        obtain ⟨rfl, rfl⟩ := h
        exact .function hf (Function.effect_of_edit he)

theorem change_of_edit {o : Outcome} (h : m.edit e = .ok (o, m')) : m.Change e m' := by
  cases effect_of_edit h with
  | addFunction hl => exact .addFunction hl
  | function hf he => exact .function hf he.change

/-- A change fails and does nothing, or it succeeds. -/
theorem apply_cases (m : Module) (e : Edit) :
    m.apply e = m ∨ ((∃ o, m.edit e = .ok (o, m.apply e)) ∧ m.Change e (m.apply e)) := by
  unfold apply
  cases h : m.edit e with
  | error err => exact .inl rfl
  | ok x => exact .inr ⟨⟨x.1, rfl⟩, change_of_edit h⟩

theorem getElem?_setFunction {id i : Nat} {f f' g : Function} (h : m.functions[id]? = some f)
    (hg : (m.setFunction id f').functions[i]? = some g) :
    (i = id ∧ g = f') ∨ m.functions[i]? = some g := by
  obtain ⟨hid, -⟩ := List.getElem?_eq_some_iff.mp h
  by_cases hi : id = i
  · subst hi
    rw [setFunction, List.getElem?_set_self hid] at hg
    exact .inl ⟨rfl, (Option.some.inj hg).symm⟩
  · rw [setFunction, List.getElem?_set_ne hi] at hg
    exact .inr hg

/-! ## What changes keep -/

theorem Keeps.refl (m : Module) : m.Keeps m := fun _ f hf => ⟨f, hf, .refl f⟩

theorem Keeps.trans {m'' : Module} (h : m.Keeps m') (h' : m'.Keeps m'') : m.Keeps m'' := by
  intro id f hf
  obtain ⟨f', hf', hk⟩ := h id f hf
  obtain ⟨f'', hf'', hk'⟩ := h' id f' hf'
  exact ⟨f'', hf'', hk.trans hk'⟩

theorem Change.keeps (h : m.Change e m') : m.Keeps m' := by
  intro i g hg
  obtain ⟨hi, -⟩ := List.getElem?_eq_some_iff.mp hg
  cases h with
  | addFunction hl => exact ⟨g, by simp [List.getElem?_append_left hi, hg], .refl g⟩
  | @function id e f f' hf hs =>
    by_cases hid : id = i
    · subst hid
      obtain rfl : f = g := Option.some.inj (hf.symm.trans hg)
      exact ⟨f', by simp [setFunction, hi], hs.keeps⟩
    · exact ⟨g, by simp [setFunction, hid, hg], .refl g⟩

/-- What each change keeps up holds after all of them. -/
theorem applyAll_of_change {I : Module → Prop} (hstep : ∀ m e m', Change m e m' → I m → I m')
    (es : List Edit) (h : I m) : I (m.applyAll es) := by
  induction es generalizing m with
  | nil => exact h
  | cons e es ih =>
    apply ih
    rcases apply_cases m e with heq | ⟨-, hs⟩
    · rwa [heq]
    · exact hstep m e _ hs h

theorem keeps_applyAll (m : Module) (es : List Edit) : m.Keeps (m.applyAll es) :=
  applyAll_of_change (fun _ _ _ hs h => h.trans hs.keeps) es (.refl m)

theorem applyAll_append (m : Module) (es es' : List Edit) :
    m.applyAll (es ++ es') = (m.applyAll es).applyAll es' := List.foldl_append

/-! ## Names -/

theorem lookup?_eq_none {name : String} (h : m.lookup? name = none) :
    name ∉ m.functions.map (·.name) := by
  intro hmem
  obtain ⟨f, hf, rfl⟩ := List.mem_map.mp hmem
  have := List.findIdx?_eq_none_iff.mp h f hf
  simp at this

/-- If the names of functions differ, a function is found by its name. -/
theorem lookup?_eq_some (h : (m.functions.map (·.name)).Nodup) {name : String} {i : Nat} :
    m.lookup? name = some i ↔ ∃ f, m.functions[i]? = some f ∧ f.name = name := by
  rw [lookup?, List.findIdx?_eq_some_iff_getElem]
  constructor
  · rintro ⟨hi, hname, -⟩
    exact ⟨m.functions[i], List.getElem?_eq_getElem hi, by simpa using hname⟩
  · rintro ⟨f, hf, rfl⟩
    obtain ⟨hi, rfl⟩ := List.getElem?_eq_some_iff.mp hf
    refine ⟨hi, by simp, ?_⟩
    intro j hj hsame
    have hdiffer := List.pairwise_iff_getElem.mp h j i (by simp; omega) (by simpa using hi) hj
    rw [List.getElem_map, List.getElem_map] at hdiffer
    exact hdiffer (by simpa using hsame)

theorem Change.names (h : m.Change e m') (hnames : (m.functions.map (·.name)).Nodup) :
    (m'.functions.map (·.name)).Nodup := by
  cases h with
  | addFunction hl =>
    rw [List.map_append, List.nodup_append]
    refine ⟨hnames, by simp, ?_⟩
    intro name hmem name' hmem' heq
    obtain rfl : name' = _ := by simpa [Function.empty] using hmem'
    exact lookup?_eq_none hl (heq ▸ hmem)
  | @function id e f f' hf hs =>
    obtain ⟨hid, rfl⟩ := List.getElem?_eq_some_iff.mp hf
    rwa [setFunction, List.map_set, hs.keeps.name, ← List.map_set, List.set_getElem_self]

/-! ## Functions -/

theorem Change.wellBuilt (h : m.Change e m') (hm : ∀ f ∈ m.functions, f.WellBuilt) :
    ∀ f ∈ m'.functions, f.WellBuilt := by
  cases h with
  | @addFunction name ret hl =>
    intro f hf
    rcases List.mem_append.mp hf with hf | hf
    · exact hm f hf
    · obtain rfl := List.mem_singleton.mp hf
      exact Function.wellBuilt_empty name ret
  | function hf hs =>
    intro g hg
    rcases List.mem_or_eq_of_mem_set hg with hg | rfl
    · exact hm g hg
    · exact hs.wellBuilt (hm _ (List.mem_of_getElem? hf))

/-- A block ends as it did before, or as the change asks. -/
theorem Change.endsWith (h : m.Change e m') {id b : Nat} {f' : Function} {t : Terminator}
    (hf' : m'.functions[id]? = some f') (ht : f'.EndsWith b t) :
    (∃ f, m.functions[id]? = some f ∧ f.EndsWith b t) ∨
      ∃ e', e = .function id e' ∧ e'.Ends f' b t := by
  cases h with
  | addFunction hl =>
    rw [List.getElem?_append] at hf'
    split at hf'
    next => exact .inl ⟨f', hf', ht⟩
    next =>
      -- The new function has no blocks.
      obtain ⟨-, hempty⟩ := Option.ite_none_right_eq_some.mp (List.getElem?_singleton ▸ hf')
      obtain ⟨block, hb, -⟩ := ht
      rw [← Option.some.inj hempty] at hb
      simp [Function.empty] at hb
  | @function id' e' f g hf hs =>
    rcases getElem?_setFunction hf hf' with ⟨rfl, rfl⟩ | hold
    · rcases hs.endsWith ht with hold | hnew
      · exact .inl ⟨f, hf, hold⟩
      · exact .inr ⟨e', rfl, hnew.keeps hs.keeps⟩
    · exact .inl ⟨f', hold, ht⟩

/-! ## Runs -/

theorem Makes.append {es es' : List Edit} (h : m.Makes es e) : m.Makes (es ++ es') e := by
  obtain ⟨before, after, o, m', rfl, hok⟩ := h
  exact ⟨before, after ++ es', o, m', by simp, hok⟩

theorem names_applyAll {es : List Edit} (h : (m.functions.map (·.name)).Nodup) :
    ((m.applyAll es).functions.map (·.name)).Nodup :=
  applyAll_of_change (fun _ _ _ hs h => hs.names h) es h

theorem wellBuilt_applyAll {es : List Edit} (h : ∀ f ∈ m.functions, f.WellBuilt) :
    ∀ f ∈ (m.applyAll es).functions, f.WellBuilt :=
  applyAll_of_change (fun _ _ _ hs h => hs.wellBuilt h) es h

/-- If no block ends at the start, all blocks end as it has been asked for. -/
theorem requested_applyAll (es : List Edit) (hm : m.functions = []) {id b : Nat} {f : Function}
    {t : Terminator} (hf : (m.applyAll es).functions[id]? = some f) (ht : f.EndsWith b t) :
    ∃ e, m.Makes es (.function id e) ∧ e.Ends f b t := by
  -- Taken from the end of the run: either its last change ends the block, or the block has ended
  -- before and the targets of its branch have kept their labels.
  induction es using List.reverseRecOn generalizing f with
  | nil => simp [applyAll, hm] at hf
  | append_singleton es e ih =>
    rw [applyAll_append] at hf
    have hf : ((m.applyAll es).apply e).functions[id]? = some f := hf
    rcases apply_cases (m.applyAll es) e with heq | ⟨⟨o, hok⟩, hs⟩
    · rw [heq] at hf
      obtain ⟨e', hmakes, hends⟩ := ih hf ht
      exact ⟨e', hmakes.append, hends⟩
    · rcases hs.endsWith hf ht with ⟨g, hg, hold⟩ | ⟨e', rfl, hnew⟩
      · obtain ⟨e', hmakes, hends⟩ := ih hg hold
        obtain ⟨f', hf', hkeeps⟩ := hs.keeps id g hg
        obtain rfl : f = f' := Option.some.inj (hf.symm.trans hf')
        exact ⟨e', hmakes.append, hends.keeps hkeeps⟩
      · exact ⟨e', ⟨es, [], o, _, rfl, hok⟩, hnew⟩

/-- Whatever changes are made to an empty module, the module that comes of them is well built. -/
theorem builtBy_applyAll (name : String) (es : List Edit) :
    BuiltBy (empty name) es ((empty name).applyAll es) := by
  have hnames : (((empty name).applyAll es).functions.map (·.name)).Nodup :=
    names_applyAll (by simp [empty])
  have hfunctions : ∀ f ∈ ((empty name).applyAll es).functions, f.WellBuilt :=
    wellBuilt_applyAll (by simp [empty])
  refine ⟨fun _ _ => lookup?_eq_some hnames, hnames, hfunctions, ?_, ?_, ?_⟩
  · intro f hf
    have hlabelled := (hfunctions f hf).labelled
    refine ⟨hlabelled.nodup, ?_⟩
    intro b hb
    obtain ⟨i, hi⟩ := List.mem_iff_getElem?.mp hb
    exact hlabelled.blockOf? hi
  · intro id f b t hf ht
    exact requested_applyAll es rfl hf ht
  · rintro before after rfl
    rw [applyAll_append]
    exact keeps_applyAll _ after

/-- A label may look like one that has its index already, and a block ends only once. -/
example :
    let m := (empty "m").applyAll [.addFunction "f" .void, .function 0 (.addBlock "if.1"),
      .function 0 (.br 0 1), .function 0 (.br 0 0)]
    m.functions.map (fun f => f.blocks.map fun b => (b.label, b.terminator)) =
      [[("entry.0", some (.br "if.1.1")), ("if.1.1", none)]] := by
  decide

end ProcLang.IR.Module

import ProcLang.Proofs.Lowering.Bodies

/-!
# The programs that can be lowered

Lowering a program succeeds exactly if it keeps the static rules. So whatever it is given, lowering
never fails because of a type: no rule speaks of types, since every value can be converted to the
type that is needed.

## Main statements

* `Program.exists_lower_iff` — a program can be lowered exactly if it is well-formed.
-/
namespace ProcLang

/-! ## Headers -/

theorem splitParams_of_nodup {seen : List String} {ps : List Param}
    (h : (ps.map (·.name)).Nodup) (hseen : ∀ p ∈ ps, p.name ∉ seen) :
    splitParams seen ps = (ps, none) := by
  induction ps generalizing seen with
  | nil => rfl
  | cons p ps ih =>
    obtain ⟨hp, h⟩ := List.nodup_cons.mp h
    obtain ⟨hfresh, hseen⟩ := List.forall_mem_cons.mp hseen
    have hrest : ∀ q ∈ ps, q.name ∉ p.name :: seen := by
      intro q hq hmem
      rcases List.mem_cons.mp hmem with heq | hmem
      · exact hp (List.mem_map.mpr ⟨q, hq, heq⟩)
      · exact hseen q hq hmem
    rw [splitParams, if_neg (by simpa using hfresh), ih h hrest]

namespace Generator

variable {g g' : Generator} {u : Unit}

theorem exists_declare {d : Declaration} (hname : d.name ∉ g.module.functions.map (·.name))
    (hparams : (d.params.map (·.name)).Nodup) : ∃ g', declare d g = .ok () g' := by
  have hnone : g.module.lookup? d.name = none := by
    refine List.findIdx?_eq_none_iff.mpr fun f hf => ?_
    have hne : f.name ≠ d.name := fun heq => hname (heq ▸ List.mem_map_of_mem hf)
    simpa using hne
  rw [declare, IR.Module.addFunction, hnone, splitParams_of_nodup hparams (by simp)]
  exact ⟨_, rfl⟩

theorem exists_declareAll {p : Program}
    (hnames : (g.module.functions.map (·.name) ++ p.map (·.name)).Nodup)
    (hparams : ∀ d ∈ p, (d.params.map (·.name)).Nodup) : ∃ g', declareAll p g = .ok () g' := by
  induction p generalizing g with
  | nil => exact ⟨g, rfl⟩
  | cons d p ih =>
    obtain ⟨hd, hparams⟩ := List.forall_mem_cons.mp hparams
    have hname : d.name ∉ g.module.functions.map (·.name) := fun hmem =>
      (List.nodup_append.mp hnames).2.2 _ hmem _ List.mem_cons_self rfl
    obtain ⟨g₁, h₁⟩ := exists_declare hname hd
    obtain ⟨-, -, hg₁⟩ := declare_ok h₁
    obtain ⟨g₂, h₂⟩ := @ih g₁ (by simpa [hg₁, Declaration.header, IR.Function.empty] using hnames)
      hparams
    exact ⟨g₂, Lower.seq_eq_ok.mpr ⟨(), g₁, h₁, h₂⟩⟩

/-! ## Bodies -/

theorem exists_define_iff {id : Nat} {d : Declaration} {fs fs' : List IR.Function}
    (hg : g.module.functions = fs ++ d.header :: fs') (hid : id = fs.length) :
    (∃ u g', define id d g = .ok u g') ↔
      Lower.Succeeds (Lower.body d) ⟨d.header.entry, g.scopes.reset.push, 0⟩ := by
  have hfun : g.module.function id = .ok d.header := by
    simp [IR.Module.function, hg, hid]
  simp only [define, hfun, Lower.Succeeds]
  cases Lower.body d ⟨d.header.entry, g.scopes.reset.push, 0⟩ <;> simp

theorem exists_defineAll_iff {id : Nat} {p : Program} {fs : List IR.Function}
    (hg : g.module.functions = fs ++ p.map (·.header)) (hid : id = fs.length)
    (hp : ∀ d ∈ p, (d.params.map (·.name)).Nodup) :
    (∃ u g', defineAll id p g = .ok u g') ↔ ∀ d ∈ p,
      Lower.Succeeds (Lower.body d) ⟨d.header.entry, g.scopes.reset.push, 0⟩ := by
  induction p generalizing g id fs with
  | nil => simpa using ⟨(), g, rfl⟩
  | cons d p ih =>
    obtain ⟨hd, hp⟩ := List.forall_mem_cons.mp hp
    rw [List.forall_mem_cons, ← exists_define_iff hg hid]
    -- What the bodies behind see does not depend on the code of this one.
    have hrest : ∀ {u₁ g₁}, define id d g = .ok u₁ g₁ →
        ((∃ u g', defineAll (id + 1) p g₁ = .ok u g') ↔ ∀ d ∈ p,
          Lower.Succeeds (Lower.body d) ⟨d.header.entry, g.scopes.reset.push, 0⟩) := by
      intro u₁ g₁ h₁
      obtain ⟨-, hfs, hscopes⟩ := define_ok hg hid hd h₁
      have hfs₁ : g₁.module.functions =
          (fs ++ [d.built g.scopes.reset]) ++ p.map (·.header) := by simpa using hfs
      have hid₁ : id + 1 = (fs ++ [d.built g.scopes.reset]).length := by simp [hid]
      have hiff := ih hfs₁ hid₁ hp
      rw [hscopes] at hiff
      exact hiff
    constructor
    · rintro ⟨u, g', h⟩
      obtain ⟨u₁, g₁, h₁, h₂⟩ := Lower.seq_eq_ok.mp h
      exact ⟨⟨u₁, g₁, h₁⟩, (hrest h₁).mp ⟨u, g', h₂⟩⟩
    · rintro ⟨⟨u₁, g₁, h₁⟩, hall⟩
      obtain ⟨u, g', h₂⟩ := (hrest h₁).mpr hall
      exact ⟨u, g', Lower.seq_eq_ok.mpr ⟨u₁, g₁, h₁, h₂⟩⟩

theorem exists_run_iff (name : String) (p : Program) :
    (∃ u g, run name p = .ok u g) ↔ (p.map (·.name)).Nodup ∧
      (∀ d ∈ p, (d.params.map (·.name)).Nodup) ∧
      ∀ d ∈ p, Lower.Succeeds (Lower.body d) ⟨d.header.entry, p.scopes.push, 0⟩ := by
  have hempty : ((empty name).module.functions.map (·.name)).Nodup := .nil
  -- Behind the headers there is room for each body, and all of them see the same names.
  have hbodies : ∀ {g₁}, declareAll p (empty name) = .ok () g₁ →
      ((∃ u g', defineAll 0 p g₁ = .ok u g') ↔
        ∀ d ∈ p, Lower.Succeeds (Lower.body d) ⟨d.header.entry, p.scopes.push, 0⟩) := by
    intro g₁ h₁
    obtain ⟨-, hparams, hg₁⟩ := declareAll_ok hempty h₁
    have hfs : g₁.module.functions = [] ++ p.map (·.header) := by rw [hg₁]; rfl
    have hscopes : g₁.scopes.reset = p.scopes := by
      simp [hg₁, empty, Scopes.empty, Scopes.reset, Program.scopes]
    rw [← hscopes]
    exact exists_defineAll_iff hfs rfl hparams
  constructor
  · rintro ⟨u, g', h⟩
    obtain ⟨_, g₁, h₁, h₂⟩ := Lower.seq_eq_ok.mp h
    obtain ⟨hnames, hparams, -⟩ := declareAll_ok hempty h₁
    exact ⟨by simpa [empty, IR.Module.empty] using hnames, hparams, (hbodies h₁).mp ⟨u, g', h₂⟩⟩
  · rintro ⟨hnames, hparams, hall⟩
    obtain ⟨g₁, h₁⟩ := @exists_declareAll (empty name) p
      (by simpa [empty, IR.Module.empty] using hnames) hparams
    obtain ⟨u, g', h₂⟩ := (hbodies h₁).mpr hall
    exact ⟨u, g', Lower.seq_eq_ok.mpr ⟨(), g₁, h₁, h₂⟩⟩

end Generator

/-! ## Programs -/

namespace Program

theorem names_scopes {p : Program} (hn : (p.map (·.name)).Nodup) : p.scopes.names = p.names := by
  funext name
  have hlookup : p.scopes.lookup? name = p.scopes.global.lookup name :=
    Scopes.lookup?_global p.scopes.global name
  rw [Scopes.names, hlookup, lookup_global hn, names, Option.map_map]
  congr 1
  funext d
  simp [Binding.meaning, Declaration.header, IR.Function.signature, Declaration.irParams,
    ← d.isVoid_ret, IR.Function.empty]

theorem scalar_scopes (p : Program) : p.scopes.Scalar := by
  intro name b hb
  obtain ⟨d, -, -, rfl⟩ := lookup?_scopes hb
  exact d.scalar_header

theorem exists_lower_iff_exists_run (p : Program) (name : String) :
    (∃ m, p.lower name = .ok m) ↔ ∃ u g, Generator.run name p = .ok u g := by
  unfold lower
  cases Generator.run name p <;> simp

/-- A program can be lowered exactly if it keeps the static rules. -/
theorem exists_lower_iff (p : Program) (name : String) :
    (∃ m, p.lower name = .ok m) ↔ p.WellFormed := by
  rw [exists_lower_iff_exists_run, Generator.exists_run_iff]
  constructor
  · rintro ⟨hnames, hparams, hbodies⟩
    refine ⟨hnames, hparams, fun d hd => ?_⟩
    rw [← names_scopes hnames]
    exact (Lower.body_succeeds_iff p.scalar_scopes).mp (hbodies d hd)
  · rintro ⟨hnames, hparams, hbodies⟩
    refine ⟨hnames, hparams, fun d hd => (Lower.body_succeeds_iff p.scalar_scopes).mpr ?_⟩
    rw [names_scopes hnames]
    exact hbodies d hd

/-- Behind a return a literal may stand, but not even a return. -/
example :
    let body (e : Expr) : Program :=
      [⟨"f", [], [], [.expr (.return [] none), .expr e], none⟩]
    (body (.literal (.int 1) none)).WellFormed ∧ ¬ (body (.return [] none)).WellFormed := by
  decide

end Program
end ProcLang

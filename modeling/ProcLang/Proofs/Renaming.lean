import Mathlib.Data.List.Nodup
import ProcLang.Proofs.Acceptance
import ProcLang.Proofs.Lowering.Renaming

/-!
# Names of variables do not matter

A program whose variables get other names, different names for different ones, has the same module.
Only parameters show: their names stand in the headers of functions and where the code reads them.
Functions keep their names, and a variable that hides a function goes on hiding it.

## Main statements

* `Program.lower_rename`.
-/
namespace ProcLang

namespace Declaration

variable {σ τ : String → String} {d : Declaration}

@[simp] theorem name_rename (d : Declaration) : (d.rename σ).name = d.name := rfl

@[simp] theorem ret_rename (d : Declaration) : (d.rename σ).ret = d.ret := rfl

@[simp] theorem irParams_rename (d : Declaration) :
    (d.rename σ).irParams = d.irParams.map fun q => (σ q.1, q.2) := by
  simp [irParams, rename]

/-- The headers of functions differ by the names of parameters. -/
theorem header_rename (h : ∀ q ∈ d.irParams, σ q.1 = τ q.1) :
    (d.rename σ).header = d.header.rename τ := by
  simpa [header, IR.Function.rename, IR.Function.empty] using h

/-- Callers do not see the names of parameters. -/
theorem signature_rename (d : Declaration) :
    (d.rename σ).header.signature = d.header.signature := by
  simp [header, IR.Function.signature, IR.Function.empty, Function.comp_def]

end Declaration

namespace Program

variable {p : Program} {σ τ : String → String}

theorem scopes_rename (p : Program) : (p.rename σ).scopes = p.scopes := by
  simp [scopes, rename, Function.comp_def, Declaration.signature_rename]

theorem renamed_scopes (hfix : ∀ d ∈ p, σ d.name = d.name) : p.scopes.Renamed σ τ p.scopes := by
  have hrename : ∀ d ∈ p, (σ d.name, (Binding.function d.header.signature).rename τ) =
      (d.name, .function d.header.signature) := fun d hd => by rw [hfix d hd]; rfl
  refine ⟨rfl, ?_, List.forall_mem_singleton.mpr ?_⟩
  · simpa [scopes, Scope.rename, Function.comp_def] using fun d hd => (hrename d hd).symm
  · intro x hx _ _
    obtain ⟨d, hd, rfl⟩ := List.mem_map.mp (List.mem_reverse.mp hx)
    exact hfix d hd

/-- A body with other names for its variables has the same code up to the names of parameters. -/
theorem built_rename (hσ : Function.Injective σ) (hfix : ∀ d ∈ p, σ d.name = d.name)
    {d : Declaration} (hparams : ∀ q ∈ d.irParams, σ q.1 = τ q.1)
    (h : Lower.Succeeds (Lower.body d) ⟨d.header.entry, p.scopes.push, 0⟩) :
    Lower.Succeeds (Lower.body (d.rename σ)) ⟨(d.rename σ).header.entry, p.scopes.push, 0⟩ ∧
      (d.rename σ).built p.scopes = (d.built p.scopes).rename τ := by
  obtain ⟨u, F', hF'⟩ := h
  have hcode : (d.rename σ).header.entry = d.header.entry.rename τ := by
    rw [Declaration.header_rename hparams, IR.Function.rename_entry]
  have hstart : Frame.Renamed σ τ ⟨d.header.entry, p.scopes.push, 0⟩
      ⟨(d.rename σ).header.entry, p.scopes.push, 0⟩ := ⟨hcode, rfl, (renamed_scopes hfix).push⟩
  obtain ⟨G', hG', hrenamed⟩ := Lower.body_follows hσ d hstart hparams hF'
  exact ⟨⟨u, G', hG'⟩, by simp [Declaration.built, Lower.final, hG', hF', hrenamed.code]⟩

/-- Names in the source and in the code may be changed apart, as long as parameters have the same
names in both. -/
theorem lower_rename_of_agree {name : String} {m : IR.Module} (h : p.lower name = .ok m)
    (hσ : Function.Injective σ) (hfix : ∀ d ∈ p, σ d.name = d.name)
    (hparams : ∀ d ∈ p, ∀ q ∈ d.params, σ q.name = τ q.name) :
    (p.rename σ).lower name = .ok (m.rename τ) := by
  have hagree : ∀ d ∈ p, ∀ q ∈ d.irParams, σ q.1 = τ q.1 := by
    simpa [Declaration.irParams] using hparams
  obtain ⟨hnames, hnodup, hbodies⟩ :=
    (Generator.exists_run_iff name p).mp ((exists_lower_iff_exists_run p name).mp ⟨m, h⟩)
  have hbuilt := fun d hd => built_rename hσ hfix (hagree d hd) (hbodies d hd)
  have hlower : ∃ m', (p.rename σ).lower name = .ok m' := by
    rw [exists_lower_iff_exists_run, Generator.exists_run_iff, scopes_rename]
    refine ⟨by simpa [rename, Function.comp_def] using hnames, fun d' hd' => ?_, fun d' hd' => ?_⟩
    · obtain ⟨d, hd, rfl⟩ := List.mem_map.mp hd'
      simpa [Declaration.rename, Function.comp_def] using List.Nodup.map hσ (hnodup d hd)
    · obtain ⟨d, hd, rfl⟩ := List.mem_map.mp hd'
      exact (hbuilt d hd).1
  obtain ⟨m', hm'⟩ := hlower
  have hfs := (functions_of_lower h).2.2
  have hfs' := (functions_of_lower hm').2.2
  rw [scopes_rename] at hfs'
  have hsame : m'.functions = (m.rename τ).functions := by
    rw [hfs', IR.Module.rename, hfs, rename, List.map_map, List.map_map]
    exact List.map_congr_left fun d hd => (hbuilt d hd).2
  obtain ⟨name', functions'⟩ := m'
  obtain rfl : name' = m.name := (name_of_lower hm').trans (name_of_lower h).symm
  obtain rfl : functions' = (m.rename τ).functions := hsame
  exact hm'

/-- A program can also be lowered if its variables get other names, different ones for different
variables, and functions keep theirs. The module is the same but for the names of parameters; so if
these stay it is the same. -/
theorem lower_rename {name : String} {m : IR.Module} (h : p.lower name = .ok m)
    {ρ : String → String} (hρ : Function.Injective ρ) (hfix : ∀ d ∈ p, ρ d.name = d.name) :
    (p.rename ρ).lower name = .ok (m.rename ρ) ∧
      ((∀ d ∈ p, ∀ q ∈ d.params, ρ q.name = q.name) → (p.rename ρ).lower name = .ok m) := by
  refine ⟨lower_rename_of_agree h hρ hfix fun _ _ _ _ => rfl, fun hparams => ?_⟩
  have hsame := lower_rename_of_agree (τ := id) h hρ hfix hparams
  rwa [IR.Module.rename_id] at hsame

/-- Exchanges two names. -/
def exchange (a b name : String) : String :=
  if name = a then b else if name = b then a else name

theorem exchange_injective (a b : String) : Function.Injective (exchange a b) := by
  intro x y h
  unfold exchange at h
  grind

/-- A parameter that is bound again, a variable that hides it in a block, and one that hides the
function itself. -/
def shadowSample : Program :=
  [{ name := "f"
     params := [⟨"a", .i32⟩]
     returns := [.i32]
     body :=
      [.expr (.assign "a" none (.binary .add (.var "a" none) (.literal (.int 1) none) none) none),
       .branch
        { guard := .var "a" none
          body :=
            [.expr (.assign "b" none (.call "f" [.var "a" none] none) none),
             .expr (.assign "a" none (.var "b" none) none)]
          otherwise := .nothing
          pos := none },
       .expr (.assign "f" none (.var "a" none) none),
       .expr (.return [.var "f" none] none)]
     pos := none }]

theorem lower_rename_shadowSample : ∃ m, shadowSample.lower "m" = .ok m ∧
    (shadowSample.rename (exchange "a" "b")).lower "m" = .ok (m.rename (exchange "a" "b")) ∧
    m.rename (exchange "a" "b") ≠ m ∧
    (shadowSample.rename (exchange "b" "c")).lower "m" = .ok m := by
  have hlower : (shadowSample.lower "m").toOption.map (fun m => m.rename (exchange "a" "b") == m) =
      some false := by decide +kernel
  cases hm : shadowSample.lower "m" with
  | error e => simp [hm, Except.toOption] at hlower
  | ok m =>
    refine ⟨m, rfl, ?_, ?_, ?_⟩
    · exact (lower_rename hm (exchange_injective _ _) (by decide)).1
    · simpa [hm, Except.toOption] using hlower
    · exact (lower_rename hm (exchange_injective _ _) (by decide)).2 (by decide)

end Program
end ProcLang

import ProcLang.Proofs.Acceptance
import ProcLang.Proofs.Lowering.Uniform

/-!
# Independence of functions

The code of a function depends on its own declaration and on the interfaces of the functions around
it. It does not depend on their bodies or on the order in which they stand. A program that is
written in another order can be lowered exactly if the program itself can, and has the same
functions in that order.

## Main definitions

* `Interface` — what the callers of a function need to know of its declaration.
* `Program.SameInterfaces` — programs that offer the same functions.

## Main statements

* `Program.independent_of_order`.
-/
namespace ProcLang

/-- What the callers of a function need to know of its declaration. -/
structure Interface where
  name : String
  params : List Ty
  /-- The first type that the function returns. -/
  result : Option Ty
deriving DecidableEq

/-- The interface of a declaration. -/
def Declaration.interface (d : Declaration) : Interface :=
  ⟨d.name, d.params.map (·.ty), d.returns.head?⟩

theorem Declaration.signature_header (d : Declaration) :
    d.header.signature = ⟨d.interface.name, d.interface.params.map Ty.lower,
      d.interface.result.elim .void Ty.lower⟩ := by
  obtain ⟨name, params, returns, body, pos⟩ := d
  cases returns <;>
    simp [header, irParams, IR.Function.signature, interface, ret, IR.Function.empty]

namespace Program

variable {p q : Program}

/-- The programs offer the same functions, in whatever order. -/
def SameInterfaces (p q : Program) : Prop :=
  ∀ i, i ∈ p.map (·.interface) ↔ i ∈ q.map (·.interface)

theorem SameInterfaces.symm (h : p.SameInterfaces q) : q.SameInterfaces p := fun i => (h i).symm

theorem sameInterfaces_of_perm (h : p.Perm q) : p.SameInterfaces q := fun _ => (h.map _).mem_iff

/-! ## Names -/

/-- A function is found by its name in both programs. -/
theorem SameInterfaces.find? (h : p.SameInterfaces q) (hq : (q.map (·.name)).Nodup) {name : String}
    {d : Declaration} (hd : p.find? (·.name == name) = some d) :
    ∃ d', q.find? (·.name == name) = some d' ∧ d'.interface = d.interface := by
  have hname : d.name = name := by simpa using List.find?_some hd
  have hmem : d.interface ∈ q.map (·.interface) :=
    (h d.interface).mp (List.mem_map_of_mem (List.mem_of_find?_eq_some hd))
  obtain ⟨d', hd', hsame⟩ := List.mem_map.mp hmem
  have hname' : d'.name = name := (congrArg Interface.name hsame).trans hname
  exact ⟨d', hname' ▸ find?_name hq hd', hsame⟩

theorem SameInterfaces.alike (h : p.SameInterfaces q) (hp : (p.map (·.name)).Nodup)
    (hq : (q.map (·.name)).Nodup) : p.scopes.Alike q.scopes := by
  refine ⟨rfl, fun name => ?_⟩
  rw [lookup_global hp, lookup_global hq]
  cases hfind : p.find? (·.name == name) with
  | some d =>
    obtain ⟨d', hfind', hsame⟩ := h.find? hq hfind
    rw [hfind', Option.map_some, Option.map_some, d.signature_header, d'.signature_header, hsame]
  | none =>
    cases hfind' : q.find? (·.name == name) with
    | none => rfl
    | some d' =>
      obtain ⟨d, hd, -⟩ := h.symm.find? hp hfind'
      simp [hfind] at hd

/-! ## Functions -/

/-- A declaration that stands in two programs with the same interfaces becomes the same function. -/
theorem SameInterfaces.same_function (h : p.SameInterfaces q) {name name' : String}
    {m m' : IR.Module} (hp : p.lower name = .ok m) (hq : q.lower name' = .ok m') {i j : Nat}
    {d : Declaration} (hi : p[i]? = some d) (hj : q[j]? = some d) :
    ∃ f, m.functions[i]? = some f ∧ m'.functions[j]? = some f := by
  obtain ⟨hnames, -, hfs⟩ := functions_of_lower hp
  obtain ⟨hnames', -, hfs'⟩ := functions_of_lower hq
  refine ⟨d.built p.scopes, by simp [hfs, hi], ?_⟩
  simp [hfs', hj, d.built_eq (h.alike hnames hnames')]

/-! ## Order -/

theorem exists_lower_of_perm (h : p.Perm q) {name name' : String}
    (hp : ∃ m, p.lower name = .ok m) : ∃ m, q.lower name' = .ok m := by
  rw [exists_lower_iff_exists_run, Generator.exists_run_iff] at hp ⊢
  obtain ⟨hnames, hparams, hbodies⟩ := hp
  have hnames' : (q.map (·.name)).Nodup := (h.map _).nodup_iff.mp hnames
  have halike := (sameInterfaces_of_perm h).alike hnames hnames'
  refine ⟨hnames', fun d hd => hparams d (h.mem_iff.mpr hd), fun d hd => ?_⟩
  exact (Lower.body_uniform d).succeeds (halike.push.frame _ 0) (hbodies d (h.mem_iff.mpr hd))

/-- In another order the declarations become the same functions. -/
theorem functions_of_perm (h : p.Perm q) {name name' : String} {m m' : IR.Module}
    (hp : p.lower name = .ok m) (hq : q.lower name' = .ok m') :
    (p.zip m.functions).Perm (q.zip m'.functions) := by
  obtain ⟨hnames, -, hfs⟩ := functions_of_lower hp
  obtain ⟨hnames', -, hfs'⟩ := functions_of_lower hq
  have hbuilt : (fun d : Declaration => d.built q.scopes) = fun d => d.built p.scopes := by
    funext d
    exact (d.built_eq ((sameInterfaces_of_perm h).alike hnames hnames')).symm
  rw [hfs, hfs', hbuilt, ← List.map_prod_left_eq_zip, ← List.map_prod_left_eq_zip]
  exact h.map _

theorem length_functions {name : String} {m : IR.Module} (h : p.lower name = .ok m) :
    m.functions.length = p.length := by
  rw [(functions_of_lower h).2.2, List.length_map]

/-- A function depends on its declaration and on the interfaces of the program only. Programs that
differ by the order of their declarations have the same functions in that order. -/
theorem independent_of_order (p q : Program) (name name' : String) :
    (∀ m m', p.lower name = .ok m → q.lower name' = .ok m' → p.SameInterfaces q →
      ∀ (i j : Nat) (d : Declaration), p[i]? = some d → q[j]? = some d →
        ∃ f, m.functions[i]? = some f ∧ m'.functions[j]? = some f) ∧
    (p.Perm q → ((∃ m, p.lower name = .ok m) ↔ ∃ m', q.lower name' = .ok m') ∧
      ∀ m m', p.lower name = .ok m → q.lower name' = .ok m' →
        m.functions.length = p.length ∧ m'.functions.length = q.length ∧
          (p.zip m.functions).Perm (q.zip m'.functions)) := by
  refine ⟨fun m m' hp hq h i j d hi hj => h.same_function hp hq hi hj, fun h => ⟨?_, ?_⟩⟩
  · exact ⟨exists_lower_of_perm h, exists_lower_of_perm h.symm⟩
  · intro m m' hp hq
    exact ⟨length_functions hp, length_functions hq, functions_of_perm h hp hq⟩

/-- The functions of `sample` in the other order, the second one with another body. -/
def sampleTwin : Program :=
  sample.reverse.map fun d => if d.name == "main" then { d with body := [] } else d

theorem independent_of_order_sample : ∃ m m' m'', sample.lower "sample" = .ok m ∧
    sampleTwin.lower "twin" = .ok m' ∧ lower "sample" sample.reverse = .ok m'' ∧
    (∃ f, m.functions[0]? = some f ∧ m'.functions[1]? = some f) ∧
    (sample.zip m.functions).Perm (sample.reverse.zip m''.functions) := by
  obtain ⟨m, hm⟩ := exists_lower_sample
  have hperm : sample.Perm sample.reverse := sample.reverse_perm.symm
  have hreverse := independent_of_order sample sample.reverse "sample" "sample"
  obtain ⟨m'', hm''⟩ := (hreverse.2 hperm).1.mp ⟨m, hm⟩
  have htwin : (sampleTwin.lower "twin").isOk = true := by decide +kernel
  cases hm' : sampleTwin.lower "twin" with
  | error e => simp [hm', Except.isOk, Except.toBool] at htwin
  | ok m' =>
    have hsame : sample.SameInterfaces sampleTwin := by
      intro i
      exact (List.Perm.swap ..).mem_iff
    refine ⟨m, m', m'', hm, rfl, hm'', ?_, ((hreverse.2 hperm).2 m m'' hm hm'').2.2⟩
    exact (independent_of_order sample sampleTwin "sample" "twin").1 m m' hm hm' hsame 0 1 _ rfl rfl

end Program
end ProcLang

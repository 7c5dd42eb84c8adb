import ProcLang.Proofs.Acceptance
import ProcLang.Proofs.Lowering.Partial

/-!
# What lowering leaves behind

Whether lowering succeeds or fails, its state can be looked at afterwards. Between two bodies no
scope is open but the global one and no function is the current one. A header that fails leaves a
module without any code. A body that fails leaves its function current and half built, the functions
before it finished and those behind it without code.

## Main definitions

* `Generator.Idle` — no body is being lowered.
* `Generator.FailsIn` — lowering fails in the body of a function.
* `Generator.StoppedIn` — what is left then.

## Main statements

* `Generator.state_after_run` — the state after any outcome.
-/
namespace ProcLang

/-- A declaration without its body. -/
def Declaration.hollow (d : Declaration) : Declaration := { d with body := [] }

/-- The program in which all bodies from that of index `k` on are empty. -/
def Program.hollowFrom (p : Program) (k : Nat) : Program :=
  p.take k ++ (p.drop k).map (·.hollow)

namespace Generator

/-- No body is being lowered. -/
structure Idle (g : Generator) : Prop where
  depth : g.scopes.depth = 1
  current : g.current = none

/-- Lowering `p` fails with `e` in the body of the function of index `k` and leaves `g`: the headers
and all bodies before it can be lowered. -/
def FailsIn (name : String) (p : Program) (k : Nat) (e : LoweringError) (g : Generator) : Prop :=
  ∃ d g₁, p[k]? = some d ∧
    (do declareAll p; defineAll 0 (p.take k) : EStateM LoweringError Generator Unit) (.empty name) =
      .ok () g₁ ∧
    define k d g₁ = .error e g

/-- What is left of `p` if lowering stops in the body of the function of index `k`. -/
structure StoppedIn (name : String) (p : Program) (k : Nat) (g : Generator) : Prop where
  current : ∃ block, g.current = some (k, block)
  depth : 2 ≤ g.scopes.depth
  /-- The functions before it are those of the program that has no bodies from it on. -/
  before : ∃ m, (p.hollowFrom k).lower name = .ok m ∧
    ∀ i < k, g.module.functions[i]? = m.functions[i]?
  /-- The functions behind it have no blocks. -/
  behind : ∀ i, k < i → g.module.functions[i]? = p[i]?.map (·.header)
  /-- Its own instructions refer only to temporaries that have been defined before. -/
  history : ∃ f log, g.module.functions[k]? = some f ∧ f.History log

end Generator

/-! ## Programs without some of their bodies -/

namespace Program

variable {p : Program} {k : Nat}

theorem map_hollowFrom {α : Type} (p : Program) (k : Nat) {f : Declaration → α}
    (hf : ∀ d, f d.hollow = f d) : (p.hollowFrom k).map f = p.map f := by
  have hdrop : ((p.drop k).map (·.hollow)).map f = (p.drop k).map f := by
    rw [List.map_map]
    exact List.map_congr_left fun d _ => hf d
  rw [hollowFrom, List.map_append, hdrop, ← List.map_append, List.take_append_drop]

theorem scopes_hollowFrom (p : Program) (k : Nat) : (p.hollowFrom k).scopes = p.scopes := by
  unfold scopes
  rw [map_hollowFrom p k fun d => rfl]

theorem forall_mem_hollowFrom {P : Declaration → Prop} (h : ∀ d ∈ p.take k, P d)
    (h' : ∀ d ∈ p, P d.hollow) : ∀ d ∈ p.hollowFrom k, P d := by
  intro d hd
  rcases List.mem_append.mp hd with hd | hd
  · exact h d hd
  · obtain ⟨d', hd', rfl⟩ := List.mem_map.mp hd
    exact h' d' (List.mem_of_mem_drop hd')

/-- An empty body can always be lowered, and the bodies before it do not notice. -/
theorem exists_lower_hollowFrom (hnames : (p.map (·.name)).Nodup)
    (hparams : ∀ d ∈ p, (d.params.map (·.name)).Nodup)
    (hbodies : ∀ d ∈ p.take k,
      Lower.Succeeds (Lower.body d) ⟨d.header.entry, p.scopes.push, 0⟩) (name : String) :
    ∃ m, (p.hollowFrom k).lower name = .ok m ∧
      ∀ i < k, m.functions[i]? = p[i]?.map (·.built p.scopes) := by
  have hall : ∀ d ∈ p.hollowFrom k,
      Lower.Succeeds (Lower.body d) ⟨d.header.entry, p.scopes.push, 0⟩ := by
    refine forall_mem_hollowFrom hbodies fun d _ => ?_
    exact (Lower.body_succeeds_iff p.scalar_scopes).mpr trivial
  have hruns := (Generator.exists_run_iff name (p.hollowFrom k)).mpr
    ⟨by rwa [map_hollowFrom p k fun d => rfl],
      forall_mem_hollowFrom (fun d hd => hparams d (List.mem_of_mem_take hd)) hparams,
      by rwa [scopes_hollowFrom]⟩
  obtain ⟨m, hm⟩ := (exists_lower_iff_exists_run _ _).mpr hruns
  obtain ⟨-, -, hfs⟩ := functions_of_lower hm
  refine ⟨m, hm, fun i hi => ?_⟩
  rw [hfs, scopes_hollowFrom, hollowFrom, List.getElem?_map]
  by_cases hlt : i < (p.take k).length
  · rw [List.getElem?_append_left hlt, List.getElem?_take_of_lt hi]
  · have hp : p.length ≤ i := by
      rw [List.length_take] at hlt
      omega
    have hdrop : p.drop k = [] := List.drop_eq_nil_of_le (by omega)
    simp [hdrop, hi, hp]

end Program

/-! ## Headers -/

namespace Generator

variable {g g' : Generator} {u : Unit} {e : LoweringError} {name : String} {p : Program}

/-- Between bodies and without any code. -/
structure Fresh (g : Generator) : Prop extends g.Idle where
  blocks : ∀ f ∈ g.module.functions, f.blocks = []

theorem fresh_empty (name : String) : (empty name).Fresh :=
  ⟨⟨rfl, rfl⟩, by simp [empty, IR.Module.empty]⟩

theorem Fresh.declare_ok {d : Declaration} (hg : g.Fresh) (h : declare d g = .ok u g') :
    g'.Fresh := by
  obtain ⟨-, -, rfl⟩ := Generator.declare_ok h
  refine ⟨⟨hg.depth, hg.current⟩, ?_⟩
  intro f hf
  rcases List.mem_append.mp hf with hf | hf
  · exact hg.blocks f hf
  · obtain rfl := List.mem_singleton.mp hf
    rfl

/-- A header that fails has either not been added, or it has with the parameters before the one that
is repeated. -/
theorem Fresh.declare_error {d : Declaration} (hg : g.Fresh) (h : declare d g = .error e g') :
    g'.Fresh := by
  unfold declare IR.Module.addFunction at h
  cases hl : g.module.lookup? d.name with
  | some i =>
    simp only [hl, EStateM.Result.error.injEq] at h
    exact h.2 ▸ hg
  | none =>
    simp only [hl] at h
    cases hs : (splitParams [] d.params).2 with
    | none => simp [hs] at h
    | some q =>
      simp only [hs, EStateM.Result.error.injEq] at h
      obtain ⟨-, rfl⟩ := h
      refine ⟨⟨hg.depth, hg.current⟩, ?_⟩
      intro f hf
      rcases List.mem_or_eq_of_mem_set hf with hf | rfl
      · rcases List.mem_append.mp hf with hf | hf
        · exact hg.blocks f hf
        · obtain rfl := List.mem_singleton.mp hf
          rfl
      · rfl

theorem Fresh.declareAll_error (hg : g.Fresh) (h : declareAll p g = .error e g') : g'.Fresh := by
  induction p generalizing g with
  | nil => cases h
  | cons d p ih =>
    obtain hd | ⟨_, g₁, h₁, h⟩ := Lower.seq_eq_error.mp h
    · exact hg.declare_error hd
    · exact ih (hg.declare_ok h₁) h

/-- What is there before the first body. -/
structure Declared (p : Program) (g : Generator) : Prop extends g.Idle where
  names : (p.map (·.name)).Nodup
  params : ∀ d ∈ p, (d.params.map (·.name)).Nodup
  functions : g.module.functions = p.map (·.header)
  scopes : g.scopes = p.scopes

theorem declared_of_declareAll (h : declareAll p (empty name) = .ok u g) : g.Declared p := by
  have hempty : ((empty name).module.functions.map (·.name)).Nodup := .nil
  obtain ⟨hnames, hparams, rfl⟩ := declareAll_ok hempty h
  refine ⟨⟨rfl, rfl⟩, by simpa [empty, IR.Module.empty] using hnames, hparams, ?_, ?_⟩
  · simp [empty, IR.Module.empty]
  · simp [empty, Scopes.empty, Program.scopes]

/-! ## Bodies -/

theorem Idle.reset (h : g.Idle) : g.scopes.reset = g.scopes := by
  have hinner : g.scopes.inner = [] := List.eq_nil_of_length_eq_zero (Nat.succ.inj h.depth)
  rw [Scopes.reset, ← hinner]

theorem Idle.define_ok {id : Nat} {d : Declaration} {fs fs' : List IR.Function} (hi : g.Idle)
    (hg : g.module.functions = fs ++ d.header :: fs') (hid : id = fs.length)
    (hd : (d.params.map (·.name)).Nodup) (h : define id d g = .ok u g') :
    g'.Idle ∧ g'.scopes = g.scopes ∧ g'.module.functions = fs ++ d.built g.scopes :: fs' ∧
      Lower.Succeeds (Lower.body d) ⟨d.header.entry, g.scopes.push, 0⟩ := by
  have hbody := (exists_define_iff hg hid).mp ⟨u, g', h⟩
  obtain ⟨-, hfs, hscopes⟩ := Generator.define_ok hg hid hd h
  rw [hi.reset] at hbody hfs hscopes
  have hcurrent : g'.current = none := by
    unfold define at h
    split at h
    · cases h
    · dsimp only at h
      split at h
      · cases h
        rfl
      · cases h
  exact ⟨⟨hscopes ▸ hi.depth, hcurrent⟩, hscopes, hfs, hbody⟩

/-- Bodies are lowered one by one, and headers behind them stay as they are. -/
theorem Idle.defineAll_ok {id : Nat} {ds : Program} {fs fs' : List IR.Function} (hi : g.Idle)
    (hg : g.module.functions = fs ++ (ds.map (·.header) ++ fs')) (hid : id = fs.length)
    (hds : ∀ d ∈ ds, (d.params.map (·.name)).Nodup) (h : defineAll id ds g = .ok u g') :
    g'.Idle ∧ g'.scopes = g.scopes ∧
      g'.module.functions = fs ++ (ds.map (·.built g.scopes) ++ fs') ∧
      ∀ d ∈ ds, Lower.Succeeds (Lower.body d) ⟨d.header.entry, g.scopes.push, 0⟩ := by
  induction ds generalizing g id fs with
  | nil =>
    obtain ⟨-, rfl⟩ : () = u ∧ g = g' := by simpa [defineAll, pure, EStateM.pure] using h
    exact ⟨hi, rfl, hg, by simp⟩
  | cons d ds ih =>
    obtain ⟨_, g₁, h₁, h₂⟩ := Lower.seq_eq_ok.mp h
    obtain ⟨hd, hds⟩ := List.forall_mem_cons.mp hds
    obtain ⟨hi₁, hscopes, hfs, hbody⟩ := hi.define_ok hg hid hd h₁
    have hg₁ : g₁.module.functions =
        (fs ++ [d.built g.scopes]) ++ (ds.map (·.header) ++ fs') := by simpa using hfs
    obtain ⟨hi', hscopes', hfs', hbodies⟩ := ih hi₁ hg₁ (by simp [hid]) hds h₂
    rw [hscopes] at hscopes' hfs' hbodies
    exact ⟨hi', hscopes', by simpa using hfs', List.forall_mem_cons.mpr ⟨hbody, hbodies⟩⟩

theorem define_error {id : Nat} {d : Declaration} {fs fs' : List IR.Function}
    (hg : g.module.functions = fs ++ d.header :: fs') (hid : id = fs.length)
    (h : define id d g = .error e g') :
    ∃ F, Lower.body d ⟨d.header.entry, g.scopes.reset.push, 0⟩ = .error e F ∧
      g'.module.functions = fs ++ F.code :: fs' ∧ g'.scopes = F.scopes ∧
      g'.current = some (id, F.block) := by
  have hfun : g.module.function id = .ok d.header := by
    simp [IR.Module.function, hg, hid]
  simp only [define, hfun] at h
  cases hb : Lower.body d ⟨d.header.entry, g.scopes.reset.push, 0⟩ with
  | ok u F => simp [hb] at h
  | error e' F =>
    simp only [hb, EStateM.Result.error.injEq] at h
    obtain ⟨rfl, rfl⟩ := h
    exact ⟨F, rfl, by simp [IR.Module.setFunction, hg, hid], rfl, rfl⟩

/-- If lowering bodies fails, then in one of them after all before it. -/
theorem defineAll_error {id : Nat} (h : defineAll id p g = .error e g') :
    ∃ k d g₁, p[k]? = some d ∧ defineAll id (p.take k) g = .ok () g₁ ∧
      define (id + k) d g₁ = .error e g' := by
  induction p generalizing g id with
  | nil => cases h
  | cons d p ih =>
    obtain hd | ⟨_, g₁, h₁, h⟩ := Lower.seq_eq_error.mp h
    · exact ⟨0, d, g, rfl, rfl, hd⟩
    · obtain ⟨k, d', g₂, hk, h₂, hd'⟩ := ih h
      refine ⟨k + 1, d', g₂, hk, Lower.seq_eq_ok.mpr ⟨(), g₁, h₁, h₂⟩, ?_⟩
      rwa [Nat.add_right_comm, Nat.add_assoc] at hd'

/-- A body starts in a frame that is sound: outside of it there are no variables. -/
theorem sound_start (p : Program) (d : Declaration) :
    Frame.Sound ⟨d.header.entry, p.scopes.push, 0⟩ where
  history := (d.header.evolves_entry).history (IR.Function.history_of_nil rfl rfl)
  slots := by
    intro scope hs x hx v hv
    have hscope : scope = [] ∨ scope = p.scopes.global := by
      simpa [Scopes.all, Scopes.push, Program.scopes] using hs
    rcases hscope with rfl | rfl
    · cases hx
    · obtain ⟨d', -, rfl⟩ := List.mem_map.mp (List.mem_reverse.mp hx)
      cases hv

/-- The functions of a program whose lowering has stopped in a body, which has got as far as
`F`. -/
theorem FailsIn.functions {k : Nat} (h : FailsIn name p k e g) :
    ∃ (g₀ : Generator) (d : Declaration) (F : Frame), g₀.Declared p ∧ k < p.length ∧
      (∀ d ∈ p.take k, Lower.Succeeds (Lower.body d) ⟨d.header.entry, p.scopes.push, 0⟩) ∧
      Lower.body d ⟨d.header.entry, p.scopes.push, 0⟩ = .error e F ∧
      g.module.functions = (p.take k).map (·.built p.scopes) ++
        F.code :: (p.drop (k + 1)).map (·.header) ∧
      g.scopes = F.scopes ∧ g.current = some (k, F.block) := by
  obtain ⟨d, g₁, hk, hrun, hdef⟩ := h
  obtain ⟨_, g₀, h₀, h₁⟩ := Lower.seq_eq_ok.mp hrun
  have hdecl := declared_of_declareAll h₀
  obtain ⟨hlt, hget⟩ := List.getElem?_eq_some_iff.mp hk
  have hdrop : p.drop k = d :: p.drop (k + 1) := by rw [List.drop_eq_getElem_cons hlt, hget]
  have hsplit : g₀.module.functions = [] ++ ((p.take k).map (·.header) ++
      d.header :: (p.drop (k + 1)).map (·.header)) := by
    rw [hdecl.functions, List.nil_append, ← List.map_cons, ← hdrop, ← List.map_append,
      List.take_append_drop]
  obtain ⟨hi₁, hscopes₁, hfs₁, hbodies⟩ := hdecl.toIdle.defineAll_ok hsplit rfl
    (fun d hd => hdecl.params d (List.mem_of_mem_take hd)) h₁
  rw [hdecl.scopes] at hscopes₁ hfs₁ hbodies
  have hlen : k = ((p.take k).map (·.built p.scopes)).length := by
    rw [List.length_map, List.length_take]
    omega
  obtain ⟨F, hF, hfs, hrest⟩ := define_error hfs₁ hlen hdef
  rw [hi₁.reset, hscopes₁] at hF
  exact ⟨g₀, d, F, hdecl, hlt, hbodies, hF, hfs, hrest⟩

theorem stoppedIn_of_failsIn {k : Nat} (h : FailsIn name p k e g) : StoppedIn name p k g := by
  obtain ⟨g₀, d, F, hdecl, hlt, hbodies, hF, hfs, hscopes, hcurrent⟩ := h.functions
  obtain ⟨hsound, hdepth⟩ := (Lower.body_traced (sound_start p d) d).error hF
  obtain ⟨log, hlog⟩ := hsound.history
  obtain ⟨m, hm, hbefore⟩ :=
    Program.exists_lower_hollowFrom hdecl.names hdecl.params hbodies name
  have hlen : ((p.take k).map (·.built p.scopes)).length = k := by
    rw [List.length_map, List.length_take]
    omega
  refine ⟨⟨F.block, hcurrent⟩, hscopes ▸ hdepth, ⟨m, hm, fun i hi => ?_⟩, fun i hi => ?_,
    F.code, log, ?_, hlog⟩
  · rw [hbefore i hi, hfs, List.getElem?_append_left (by omega), List.getElem?_map,
      List.getElem?_take_of_lt hi]
  · obtain ⟨j, rfl⟩ := Nat.exists_eq_add_of_lt hi
    rw [hfs, List.getElem?_append_right (by omega), hlen, Nat.add_assoc, Nat.add_sub_cancel_left,
      List.getElem?_cons_succ, List.getElem?_map, List.getElem?_drop, Nat.add_right_comm,
      Nat.add_assoc]
  · rw [hfs, List.getElem?_append_right (by omega), hlen, Nat.sub_self, List.getElem?_cons_zero]

/-! ## All outcomes -/

/-- What lowering leaves behind if it succeeds, if a header fails and if a body fails. There is no
other outcome. -/
theorem state_after_run (name : String) (p : Program) :
    (∀ g, run name p = .ok () g → g.scopes.depth = 1 ∧ g.current = none) ∧
    (∀ e g, declareAll p (empty name) = .error e g →
      g.current = none ∧ g.scopes.depth = 1 ∧ ∀ f ∈ g.module.functions, f.blocks = []) ∧
    (∀ k e g, FailsIn name p k e g → StoppedIn name p k g) ∧
    (∀ e g, run name p = .error e g →
      declareAll p (empty name) = .error e g ∨ ∃ k, FailsIn name p k e g) := by
  refine ⟨?_, ?_, fun k e g => stoppedIn_of_failsIn, ?_⟩
  · intro g h
    obtain ⟨_, g₀, h₀, h₁⟩ := Lower.seq_eq_ok.mp h
    have hdecl := declared_of_declareAll h₀
    have hg : g₀.module.functions = [] ++ (p.map (·.header) ++ []) := by simp [hdecl.functions]
    obtain ⟨hi, -⟩ := hdecl.toIdle.defineAll_ok hg rfl hdecl.params h₁
    exact ⟨hi.depth, hi.current⟩
  · intro e g h
    have hfresh := (fresh_empty name).declareAll_error h
    exact ⟨hfresh.current, hfresh.depth, hfresh.blocks⟩
  · intro e g h
    obtain h | ⟨_, g₀, h₀, h₁⟩ := Lower.seq_eq_error.mp h
    · exact .inl h
    · obtain ⟨k, d, g₁, hk, hok, herror⟩ := defineAll_error h₁
      rw [Nat.zero_add] at herror
      exact .inr ⟨k, d, g₁, hk, Lower.seq_eq_ok.mpr ⟨(), g₀, h₀, hok⟩, herror⟩

/-- The second of three functions reads a name that is not there, in the body of a conditional. -/
def brokenSample : Program :=
  [{ name := "first", params := [⟨"x", .i32⟩], returns := [.i32]
     body := [.expr (.return [.var "x" none] none)], pos := none },
   { name := "second", params := [⟨"b", .bool⟩], returns := []
     body :=
      [.branch
        { guard := .var "b" none
          body := [.expr (.assign "y" none (.literal (.int 1) none) none), .expr (.var "z" none)]
          otherwise := .nothing
          pos := none }]
     pos := none },
   { name := "third", params := [], returns := [], body := [], pos := none }]

theorem run'_eq_none {ε σ α : Type} {x : EStateM ε σ α} {s : σ} :
    x.run' s = none ↔ ∃ e s', x s = .error e s' := by
  unfold EStateM.run' EStateM.run
  cases x s <;> simp

theorem exists_failsIn_brokenSample : ∃ e g, FailsIn "sample" brokenSample 1 e g := by
  have herror : (do
      (do declareAll brokenSample; defineAll 0 (brokenSample.take 1))
      define 1 brokenSample[1] : EStateM LoweringError Generator Unit).run' (empty "sample") =
        none := by decide +kernel
  obtain ⟨e, g, h⟩ := run'_eq_none.mp herror
  obtain h | ⟨u, g₁, hstart, hd⟩ := Lower.seq_eq_error.mp h
  · have hok : (do declareAll brokenSample; defineAll 0 (brokenSample.take 1) :
        EStateM LoweringError Generator Unit).run' (empty "sample") ≠ none := by decide +kernel
    exact absurd (run'_eq_none.mpr ⟨e, g, h⟩) hok
  · exact ⟨e, g, _, g₁, rfl, hstart, hd⟩

theorem state_after_run_brokenSample : ∃ e g,
    FailsIn "sample" brokenSample 1 e g ∧ StoppedIn "sample" brokenSample 1 g := by
  obtain ⟨e, g, h⟩ := exists_failsIn_brokenSample
  exact ⟨e, g, h, (state_after_run "sample" brokenSample).2.2.1 1 e g h⟩

end Generator
end ProcLang

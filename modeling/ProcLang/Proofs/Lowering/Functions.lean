import Mathlib.Data.List.Forall2
import ProcLang.Lowering.Program
import ProcLang.Proofs.Lowering.Structure

/-!
# The code of functions and programs

A function that has been lowered is the layout of one flow: storage for its parameters and then the
flow of its body, which falls off its end by returning nothing or by getting to where no run may
get. The bodies of a program see each other by their headers only.

## Main definitions

* `IR.Function.ofFlow` — the function with a given flow.
* `Declaration.HasFlow`, `Declaration.LowersTo` — the flow and the function of a declaration.
* `Declaration.built` — the code that lowering makes of a declaration.

## Main statements

* `Program.functions_of_lower` — the functions of a program, each from its own declaration.
* `Program.lowersTo_of_lower` — if a program can be lowered, its functions have different names
  and every declaration has become its function.
-/
namespace ProcLang

open IR (Flow Block)

/-- The frame that an action ends in, also if it fails. -/
def Lower.final {α : Type} (act : Lower α) (F : Frame) : Frame :=
  match act F with
  | .ok _ F' => F'
  | .error _ F' => F'

/-- How a function that returns `ret` ends if its body does not return. -/
def IR.Function.ending (ret : IR.Ty) : IR.Terminator :=
  if ret.isVoid then .ret none else .unreachable

/-- The function with a given flow. -/
def IR.Function.ofFlow (name : String) (ret : IR.Ty) (params : List (String × IR.Ty)) (g : Flow) :
    IR.Function where
  name := name
  ret := ret
  params := params
  blocks := ⟨entryLabel, g.instrs, g.terminator 1 (some (ending ret))⟩ ::
    g.blocks 1 (some (ending ret))
  temps := g.defs

/-- Storage for parameters, the first pointer being temporary `n`, and then a flow. -/
def IR.Flow.bindParams (n : Nat) : List (String × IR.Ty) → Flow → Flow
  | [], g => g
  | (name, ty) :: ps, g => .bind n ⟨.param name, ty⟩ (bindParams (n + 1) ps g)

/-- Scopes with parameters bound to their storage. -/
def Scopes.bindParams (n : Nat) : List (String × IR.Ty) → Scopes Binding → Scopes Binding
  | [], S => S
  | (name, ty) :: ps, S =>
    bindParams (n + 1) ps (S.insert name (.slot (Flow.slot n ⟨.param name, ty⟩)))

namespace Declaration

/-- The parameters with the types of their values. -/
def irParams (d : Declaration) : List (String × IR.Ty) := d.params.map fun p => (p.name, p.ty.lower)

/-- A function without a body. -/
def header (d : Declaration) : IR.Function :=
  { IR.Function.empty d.name d.ret with params := d.irParams }

/-- `d.HasFlow S g`: with the names of `S` in scope `g` is the flow of `d`. -/
def HasFlow (S : Scopes Binding) (d : Declaration) (g : Flow) : Prop :=
  (d.params.map (·.name)).Nodup ∧ ∃ body S' n',
    Lowers d.ret (S.push.bindParams 0 d.irParams) d.params.length d.body body S' n' ∧
      g = .bindParams 0 d.irParams body

/-- `d.LowersTo S f`: with the names of `S` in scope `d` becomes `f`. -/
def LowersTo (S : Scopes Binding) (d : Declaration) (f : IR.Function) : Prop :=
  ∃ g, d.HasFlow S g ∧ f = .ofFlow d.name d.ret d.irParams g

/-- The code that lowering makes of `d` with the names of `S` in scope, as far as it gets. -/
def built (S : Scopes Binding) (d : Declaration) : IR.Function :=
  (Lower.final (Lower.body d) ⟨d.header.entry, S.push, 0⟩).code

end Declaration

/-- The names that every body sees. -/
def Program.scopes (p : Program) : Scopes Binding :=
  ⟨[], (p.map fun d => (d.name, .function d.header.signature)).reverse⟩

theorem Program.lookup?_scopes {p : Program} {name : String} {b : Binding}
    (h : p.scopes.lookup? name = some b) :
    ∃ d ∈ p, d.name = name ∧ b = .function d.header.signature := by
  rw [scopes, Scopes.lookup?_global] at h
  obtain ⟨l, l', heq, -⟩ := List.lookup_eq_some_iff.mp h
  have hmem : (name, b) ∈
      (p.map fun d => (d.name, Binding.function d.header.signature)).reverse := by
    simp [heq]
  obtain ⟨d, hd, heq⟩ := List.mem_map.mp (List.mem_reverse.mp hmem)
  cases heq
  exact ⟨d, hd, rfl, rfl⟩

/-- If functions have different names, a name means the function that has it. -/
theorem Program.lookup_global {p : Program} (hn : (p.map (·.name)).Nodup) (name : String) :
    p.scopes.global.lookup name =
      (p.find? (·.name == name)).map fun d => .function d.header.signature := by
  cases hl : p.scopes.global.lookup name with
  | some b =>
    have hlookup := (Scopes.lookup?_global p.scopes.global name).trans hl
    obtain ⟨d, hd, rfl, rfl⟩ := lookup?_scopes hlookup
    rw [find?_name hn hd]
    rfl
  | none =>
    have hnone : p.find? (·.name == name) = none := by
      refine List.find?_eq_none.mpr fun d hd => ?_
      have hne : name ≠ d.name := by
        simpa using List.lookup_eq_none_iff.mp hl (d.name, .function d.header.signature)
          (by simpa [scopes] using ⟨d, hd, rfl, rfl⟩)
      simpa using fun heq : d.name = name => hne heq.symm
    rw [hnone]
    rfl

/-! ## Bodies -/

namespace Lower

variable {F F' : Frame} {u : Unit} {pos : Option Position}

theorem params_flow {ps : List (String × IR.Ty)} (ho : F.Open) (h : params pos ps F = .ok u F') :
    F' = F.spread (.bindParams F.code.temps ps .fall) (F.scopes.bindParams F.code.temps ps) := by
  induction ps generalizing F with
  | nil =>
    simp only [params, pure_eq_ok] at h
    rw [← h.2]
    exact (Frame.spread_fall ho).symm
  | cons p ps ih =>
    obtain ⟨name, ty⟩ := p
    simp only [params, seq_eq_ok] at h
    obtain ⟨_, F₁, h₁, h₂⟩ := h
    obtain ⟨-, rfl⟩ := bind_eq_ok h₁
    have hopen : (F.spread (.bind F.code.temps ⟨.param name, ty⟩ .fall) (F.scopes.insert name
        (.slot (Flow.slot F.code.temps ⟨.param name, ty⟩)))).Open :=
      (Frame.open_spread ho.lt).mpr rfl
    rw [ih hopen h₂, Frame.spread_spread ho.lt rfl]
    rfl

theorem finish_eq_ok (h : finish pos F = .ok u F') :
    F' = { F with code := { F.code with
      blocks := F.code.blocks.modify F.block (·.goesOn (IR.Function.ending F.code.ret)) } } := by
  simp only [finish, seq_eq_ok, get_eq_ok, build_eq_ok] at h
  obtain ⟨_, _, ⟨rfl, rfl⟩, closed, F₁, ⟨code, hc, rfl⟩, h⟩ := h
  obtain ⟨block, hget, hclosed, rfl⟩ := isClosed_ok hc
  rw [IR.modify_eq_set hget, Block.goesOn]
  cases hb : block.isClosed with
  | true =>
    simp only [hclosed, hb, if_true, pure_eq_ok] at h
    obtain ⟨hlt, rfl⟩ := List.getElem?_eq_some_iff.mp hget
    simp [← h.2]
  | false =>
    simp only [hclosed, hb, Bool.false_eq_true, if_false] at h
    cases hret : F.code.ret.isVoid with
    | true =>
      simp only [hret, if_true, perform_eq_ok, IR.Function.retVoid] at h
      obtain ⟨code, ht, rfl⟩ := h
      obtain ⟨-, rfl⟩ := IR.Function.terminate_eq_ok.mp ht
      simp [IR.Function.finish, IR.modify_eq_set hget, IR.Function.ending, hret]
    | false =>
      simp only [hret, Bool.false_eq_true, if_false, perform_eq_ok, IR.Function.unreachable] at h
      obtain ⟨code, ht, rfl⟩ := h
      obtain ⟨-, rfl⟩ := IR.Function.terminate_eq_ok.mp ht
      simp [IR.Function.finish, IR.modify_eq_set hget, IR.Function.ending, hret]

end Lower

/-- The entry block is empty at first, so that the layout starts with it. -/
theorem IR.Flow.spread_entry (g : Flow) (t : IR.Terminator) :
    (g.spread none [.empty Function.entryLabel] 0).modify (g.last 0 1) (·.goesOn t) =
      ⟨Function.entryLabel, g.instrs, g.terminator 1 (some t)⟩ :: g.blocks 1 (some t) := by
  have hlt : 0 < [Block.empty Function.entryLabel].length := by simp
  calc (g.spread none [.empty Function.entryLabel] 0).modify (g.last 0 1) (·.goesOn t)
      = g.spread (some t) ([] ++ .empty Function.entryLabel :: []) 0 := spread_goesOn g hlt t
    _ = _ := spread_empty (l := []) (r := []) rfl g _

theorem IR.Flow.andThen_bindParams (n : Nat) (ps : List (String × IR.Ty)) (g : Flow) :
    (bindParams n ps .fall).andThen g = bindParams n ps g := by
  induction ps generalizing n with
  | nil => rfl
  | cons p ps ih => exact congrArg (Flow.bind n _) (ih (n + 1))

theorem IR.Flow.returns_bindParams (n : Nat) (ps : List (String × IR.Ty)) :
    (bindParams n ps .fall).returns = false := by
  induction ps generalizing n with
  | nil => rfl
  | cons p ps ih => exact ih (n + 1)

@[simp] theorem IR.Flow.defs_bindParams (n : Nat) (ps : List (String × IR.Ty)) (g : Flow) :
    (bindParams n ps g).defs = ps.length + g.defs := by
  induction ps generalizing n with
  | nil => simp [bindParams]
  | cons p ps ih =>
    simp only [bindParams, defs, ih, List.length_cons]
    omega

theorem Scopes.scopes_bindParams {S : Scopes Binding} (hS : S.inner ≠ []) (n : Nat)
    (ps : List (String × IR.Ty)) :
    (S.bindParams n ps).inner ≠ [] ∧ (S.bindParams n ps).pop = S.pop := by
  induction ps generalizing n S with
  | nil => exact ⟨hS, rfl⟩
  | cons p ps ih =>
    obtain ⟨hne, hpop⟩ := ih (inner_insert_ne_nil hS _ _) (n + 1)
    exact ⟨hne, hpop.trans (pop_insert hS _ _)⟩

/-- A body that can be lowered becomes the layout of its flow. -/
theorem Lower.body_flow {d : Declaration} {S : Scopes Binding} {F' : Frame} {u : Unit}
    (hd : (d.params.map (·.name)).Nodup)
    (h : Lower.body d ⟨d.header.entry, S.push, 0⟩ = .ok u F') :
    d.LowersTo S F'.code ∧ F'.scopes.pop = S := by
  simp only [Lower.body, seq_eq_ok, get_eq_ok] at h
  obtain ⟨_, _, ⟨rfl, rfl⟩, _, F₁, h₁, _, F₂, h₂, h₃⟩ := h
  generalize hF : (⟨d.header.entry, S.push, 0⟩ : Frame) = F at h₁
  have ho : F.Open := by
    rw [← hF]
    exact ⟨.empty IR.Function.entryLabel, rfl, rfl⟩
  obtain rfl := params_flow ho h₁
  have hreturns := Flow.returns_bindParams F.code.temps F.code.params
  obtain ⟨g, hF₂, hg⟩ := stmts_flow d.body ((Frame.open_spread ho.lt).mpr hreturns) h₂
  rw [Frame.spread_spread ho.lt hreturns, Flow.andThen_bindParams] at hF₂
  obtain rfl := finish_eq_ok h₃
  subst hF
  have hlowers : Lowers d.ret (S.push.bindParams 0 d.irParams) d.params.length d.body g F₂.scopes
      F₂.code.temps := by
    simpa [Declaration.header, Declaration.irParams, Frame.spread, IR.Function.empty,
      IR.Function.entry, Flow.defs] using hg
  have hpop := Scopes.scopes_bindParams (S := S.push) (by simp [Scopes.push]) 0 d.irParams
  refine ⟨⟨_, ⟨hd, g, _, _, hlowers, rfl⟩, ?_⟩, (hlowers.scopes hpop.1).2.trans hpop.2⟩
  rw [hF₂]
  simpa [Declaration.header, Declaration.irParams, Frame.spread, IR.Function.empty,
    IR.Function.entry, IR.Function.ofFlow] using Flow.spread_entry (.bindParams 0 d.irParams g)
      (IR.Function.ending d.ret)

/-! ## Programs -/

theorem splitParams_eq {seen : List String} {ps distinct : List Param}
    (h : splitParams seen ps = (distinct, none)) :
    distinct = ps ∧ (ps.map (·.name)).Nodup ∧ ∀ p ∈ ps, p.name ∉ seen := by
  induction ps generalizing seen distinct with
  | nil => simp_all [splitParams]
  | cons p ps ih =>
    simp only [splitParams] at h
    split at h
    case isTrue => cases h
    case isFalse hp =>
      generalize hrest : splitParams (p.name :: seen) ps = rest at h
      obtain ⟨ds, repeated⟩ := rest
      simp only [Prod.mk.injEq] at h
      obtain ⟨rfl, rfl⟩ := h
      obtain ⟨rfl, hnodup, hfresh⟩ := ih hrest
      refine ⟨rfl, ?_, ?_⟩
      · rw [List.map_cons, List.nodup_cons]
        refine ⟨?_, hnodup⟩
        intro hmem
        obtain ⟨q, hq, hname⟩ := List.mem_map.mp hmem
        exact hfresh q hq (by simp [hname])
      · intro q hq
        cases hq with
        | head => simpa using hp
        | tail _ hq => exact fun hmem => hfresh q hq (List.mem_cons_of_mem _ hmem)

namespace Generator

variable {g g' : Generator} {u : Unit}

theorem declare_ok {d : Declaration} (h : declare d g = .ok u g') :
    d.name ∉ g.module.functions.map (·.name) ∧ (d.params.map (·.name)).Nodup ∧
      g' = ⟨{ g.module with functions := g.module.functions ++ [d.header] },
        g.scopes.insertGlobal d.name (.function d.header.signature), g.current⟩ := by
  unfold declare at h
  cases hadd : g.module.addFunction d.name d.ret with
  | error e => simp [hadd] at h
  | ok r =>
    obtain ⟨id, module⟩ := r
    unfold IR.Module.addFunction at hadd
    cases hl : g.module.lookup? d.name with
    | some i => simp [hl] at hadd
    | none =>
      simp only [hl, Except.ok.injEq, Prod.mk.injEq] at hadd
      obtain ⟨rfl, rfl⟩ := hadd
      generalize hsplit : splitParams [] d.params = r at h
      obtain ⟨distinct, repeated⟩ := r
      cases repeated with
      | some p => simp [IR.Module.addFunction, hl] at h
      | none =>
        obtain ⟨rfl, hnodup, -⟩ := splitParams_eq hsplit
        refine ⟨?_, hnodup, ?_⟩
        · intro hmem
          obtain ⟨f, hf, hname⟩ := List.mem_map.mp hmem
          have hnone := List.findIdx?_eq_none_iff.mp hl f hf
          simp [hname] at hnone
        · simp only [IR.Module.addFunction, hl, IR.Module.setFunction, EStateM.Result.ok.injEq] at h
          rw [← h.2]
          simp [Declaration.header, Declaration.irParams]

theorem declareAll_ok {p : Program} (hg : (g.module.functions.map (·.name)).Nodup)
    (h : declareAll p g = .ok u g') :
    (g.module.functions.map (·.name) ++ p.map (·.name)).Nodup ∧
      (∀ d ∈ p, (d.params.map (·.name)).Nodup) ∧
      g' = ⟨{ g.module with functions := g.module.functions ++ p.map (·.header) },
        ⟨g.scopes.inner, p.scopes.global ++ g.scopes.global⟩, g.current⟩ := by
  induction p generalizing g with
  | nil =>
    obtain ⟨-, rfl⟩ : () = u ∧ g = g' := by simpa [declareAll, pure, EStateM.pure] using h
    simpa [Program.scopes] using hg
  | cons d p ih =>
    obtain ⟨_, g₁, h₁, h₂⟩ := Lower.seq_eq_ok.mp h
    obtain ⟨hname, hparams, rfl⟩ := declare_ok h₁
    have hg₁ : ((g.module.functions ++ [d.header]).map (·.name)).Nodup := by
      rw [List.map_append, List.nodup_append]
      refine ⟨hg, by simp, ?_⟩
      rintro a ha b hb rfl
      rw [List.mem_singleton.mp hb] at ha
      exact hname ha
    obtain ⟨hnames, hps, rfl⟩ := ih hg₁ h₂
    refine ⟨?_, ?_, ?_⟩
    · simpa [Declaration.header, IR.Function.empty] using hnames
    · exact List.forall_mem_cons.mpr ⟨hparams, hps⟩
    · simp [Program.scopes, Scopes.insertGlobal]

theorem define_ok {id : Nat} {d : Declaration} {fs fs' : List IR.Function}
    (hg : g.module.functions = fs ++ d.header :: fs') (hid : id = fs.length)
    (hd : (d.params.map (·.name)).Nodup) (h : define id d g = .ok u g') :
    d.LowersTo g.scopes.reset (d.built g.scopes.reset) ∧
      g'.module.functions = fs ++ d.built g.scopes.reset :: fs' ∧ g'.scopes = g.scopes.reset := by
  have hfun : g.module.function id = .ok d.header := by
    simp [IR.Module.function, hg, hid]
  simp only [define, hfun] at h
  cases hb : Lower.body d ⟨d.header.entry, g.scopes.reset.push, 0⟩ with
  | error e F => simp [hb] at h
  | ok u' F =>
    simp only [hb, EStateM.Result.ok.injEq] at h
    obtain ⟨-, rfl⟩ := h
    obtain ⟨hf, hpop⟩ := Lower.body_flow hd hb
    have hbuilt : d.built g.scopes.reset = F.code := by
      simp [Declaration.built, Lower.final, hb]
    rw [hbuilt]
    exact ⟨hf, by simp [IR.Module.setFunction, hg, hid], hpop⟩

theorem defineAll_ok {id : Nat} {p : Program} {fs : List IR.Function}
    (hg : g.module.functions = fs ++ p.map (·.header)) (hid : id = fs.length)
    (hp : ∀ d ∈ p, (d.params.map (·.name)).Nodup) (h : defineAll id p g = .ok u g') :
    (∀ d ∈ p, d.LowersTo g.scopes.reset (d.built g.scopes.reset)) ∧
      g'.module.functions = fs ++ p.map (·.built g.scopes.reset) := by
  induction p generalizing g id fs with
  | nil =>
    obtain ⟨-, rfl⟩ : () = u ∧ g = g' := by simpa [defineAll, pure, EStateM.pure] using h
    exact ⟨by simp, by simpa using hg⟩
  | cons d p ih =>
    obtain ⟨_, g₁, h₁, h₂⟩ := Lower.seq_eq_ok.mp h
    obtain ⟨hd, hp⟩ := List.forall_mem_cons.mp hp
    obtain ⟨hf, hfs, hscopes⟩ := define_ok hg hid hd h₁
    have hfs₁ : g₁.module.functions = (fs ++ [d.built g.scopes.reset]) ++ p.map (·.header) := by
      simpa using hfs
    obtain ⟨hall, hfs'⟩ := ih hfs₁ (by simp [hid]) hp h₂
    rw [hscopes] at hall hfs'
    exact ⟨List.forall_mem_cons.mpr ⟨hf, hall⟩, by simpa [Scopes.reset] using hfs'⟩

theorem name_of_define {id : Nat} {d : Declaration} (h : define id d g = .ok u g') :
    g'.module.name = g.module.name := by
  simp only [define] at h
  split at h
  · cases h
  · split at h
    · cases h
      rfl
    · cases h

theorem name_of_defineAll {id : Nat} {p : Program} (h : defineAll id p g = .ok u g') :
    g'.module.name = g.module.name := by
  induction p generalizing g id with
  | nil =>
    obtain ⟨-, rfl⟩ : () = u ∧ g = g' := by simpa [defineAll, pure, EStateM.pure] using h
    rfl
  | cons d p ih =>
    obtain ⟨_, g₁, h₁, h₂⟩ := Lower.seq_eq_ok.mp h
    rw [ih h₂, name_of_define h₁]

end Generator

/-- A module comes of a run that declares all functions before it defines the first one. -/
theorem Program.exists_run_of_lower {p : Program} {name : String} {m : IR.Module}
    (h : p.lower name = .ok m) : ∃ g₁ g, Generator.declareAll p (.empty name) = .ok () g₁ ∧
      Generator.defineAll 0 p g₁ = .ok () g ∧ g.module = m := by
  unfold Program.lower at h
  cases hr : Generator.run name p with
  | error e g => simp [hr] at h
  | ok u g =>
    obtain ⟨_, g₁, h₁, h₂⟩ := Lower.seq_eq_ok.mp hr
    exact ⟨g₁, g, h₁, h₂, by simpa [hr] using h⟩

/-- Every function of a program is built from its own declaration and the names of the others. -/
theorem Program.functions_of_lower {p : Program} {name : String} {m : IR.Module}
    (h : p.lower name = .ok m) :
    (p.map (·.name)).Nodup ∧ (∀ d ∈ p, d.LowersTo p.scopes (d.built p.scopes)) ∧
      m.functions = p.map (·.built p.scopes) := by
  obtain ⟨g₁, g, h₁, h₂, rfl⟩ := exists_run_of_lower h
  have hempty : ((Generator.empty name).module.functions.map (·.name)).Nodup := .nil
  obtain ⟨hnames, hparams, rfl⟩ := Generator.declareAll_ok hempty h₁
  obtain ⟨hall, hfs⟩ := Generator.defineAll_ok rfl (rfl : 0 = [].length) hparams h₂
  refine ⟨by simpa [Generator.empty, IR.Module.empty] using hnames, ?_, ?_⟩
  · simpa [Scopes.reset, Generator.empty, Scopes.empty, Program.scopes] using hall
  · simpa [Scopes.reset, Generator.empty, Scopes.empty, IR.Module.empty, Program.scopes] using hfs

/-- A module has the name that it was to have. -/
theorem Program.name_of_lower {p : Program} {name : String} {m : IR.Module}
    (h : p.lower name = .ok m) : m.name = name := by
  obtain ⟨g₁, g, h₁, h₂, rfl⟩ := exists_run_of_lower h
  have hempty : ((Generator.empty name).module.functions.map (·.name)).Nodup := .nil
  obtain ⟨-, -, rfl⟩ := Generator.declareAll_ok hempty h₁
  exact Generator.name_of_defineAll h₂

theorem Program.lowersTo_of_lower {p : Program} {name : String} {m : IR.Module}
    (h : p.lower name = .ok m) :
    (p.map (·.name)).Nodup ∧ List.Forall₂ (·.LowersTo p.scopes) p m.functions := by
  obtain ⟨hnames, hall, hfs⟩ := functions_of_lower h
  rw [hfs, List.forall₂_map_right_iff, List.forall₂_same]
  exact ⟨hnames, hall⟩

theorem Program.exists_lowersTo {p : Program} {name : String} {m : IR.Module}
    (h : p.lower name = .ok m) {f : IR.Function} (hf : f ∈ m.functions) :
    ∃ d ∈ p, d.LowersTo p.scopes f := by
  exact exists_of_forall₂ (lowersTo_of_lower h).2.flip hf

/-- A function with a chain of conditionals and one that calls it. -/
def Program.sample : Program :=
  [{ name := "clamp"
     params := [⟨"x", .i32⟩, ⟨"odd", .bool⟩]
     returns := [.i32]
     body :=
      [.branch
        { guard := .binary .lt (.var "x" none) (.literal (.int 0) none) none
          body := [.expr (.return [.literal (.int 0) none] none)]
          otherwise := .chain
            { guard := .var "odd" none
              body :=
                [.expr (.assign "y" (some .f32)
                  (.binary .fdiv (.var "x" none) (.literal (.int 2) none) none) none),
                 .expr (.return [.var "y" none] none)]
              otherwise := .block
                [.expr (.call "clamp" [.literal (.int 7) none, .var "odd" none] none)]
              pos := none }
          pos := none },
       .expr (.return [.var "x" none] none)]
     pos := none },
   { name := "main"
     params := []
     returns := []
     body := [.expr (.call "clamp" [.literal (.int 300) none, .literal (.bool true) none] none)]
     pos := none }]

theorem Program.exists_lower_sample : ∃ m, sample.lower "sample" = .ok m := by
  cases h : sample.lower "sample" with
  | ok m => exact ⟨m, rfl⟩
  | error e =>
    have hok : (sample.lower "sample").isOk = true := by decide +kernel
    simp [h, Except.isOk, Except.toBool] at hok

end ProcLang

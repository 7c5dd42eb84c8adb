import ProcLang.Proofs.ControlFlow
import ProcLang.Proofs.Outcome

/-!
# What lowering statements leaves alone

A body is lowered in the middle of a module: other functions have been lowered before, and the
scopes around the body belong to statements that are not done yet. Statements bind names in the
innermost scope only, and only those that they assign to directly. A conditional binds none at all;
it ends the block it starts in, adds blocks of its own, and leaves all but one of them ended.

## Main definitions

* `Stmt.targets` — the names that statements assign to directly.
* `Generator.Runs` — an action on the function that is being lowered, seen from the module.
* `Generator.LastAssigns` — the storage of the last assignment to a name.
* `Branched`, `Generator.Branches` — blocks, and modules, before and behind a conditional.

## Main statements

* `Generator.define_eq_ok`, `Generator.runs_body` — how a body is lowered, one action after the
  other.
* `Generator.effect_of_statements` — what statements do to scopes, and conditionals to blocks.
-/
namespace ProcLang

open IR (Instr Value Flow Block)

/-! ## Statements -/

/-- The name that a statement assigns to. What the bodies of a conditional assign to is not
meant. -/
def Stmt.target? : Stmt → Option String
  | .expr (.assign name _ _ _) => some name
  | _ => none

/-- The names that statements assign to directly. -/
def Stmt.targets (ss : List Stmt) : List String := ss.filterMap target?

theorem Stmt.eq_assign {s : Stmt} {name : String} (h : s.target? = some name) :
    ∃ ty value pos, s = .expr (.assign name ty value pos) := by
  unfold target? at h
  split at h
  · cases h
    exact ⟨_, _, _, rfl⟩
  · cases h

namespace Scopes

variable {α : Type}

theorem depth_eq (s : Scopes α) : s.depth = s.all.length := by simp [depth, all]

theorem exists_all (s : Scopes α) : ∃ top outer, s.all = top :: outer := by
  obtain ⟨inner, global⟩ := s
  cases inner <;> exact ⟨_, _, rfl⟩

theorem all_insert {s : Scopes α} {top : Scope α} {outer : List (Scope α)}
    (h : s.all = top :: outer) (name : String) (a : α) :
    (s.insert name a).all = ((name, a) :: top) :: outer := by
  obtain ⟨inner, global⟩ := s
  cases inner <;> cases h <;> rfl

end Scopes

/-- A flow that is one conditional, behind the instructions for its condition. -/
inductive IR.Flow.IsBranch : Flow → Prop where
  | when (is : List Instr) (cond : Value) (yes : Flow) : IsBranch (emits is (when cond yes fall))
  | either (is : List Instr) (cond : Value) (yes : Flow) (base : String) (no : Flow) :
      IsBranch (emits is (either cond yes base no fall))

namespace Lowers

variable {ret : IR.Ty} {S S' : Scopes Binding} {n n' : Nat} {g : Flow}

theorem scopes_eq {s : Stmt} (h : Lowers ret S n [s] g S' n') (hs : s.target? = none) :
    S' = S := by
  cases h with
  | value _ hss | voidCall _ _ _ hss | when _ _ _ hss | either _ _ _ _ hss | chain _ _ _ _ hss =>
    cases hss
    rfl
  | assign => cases hs
  | returnNothing | returnValue => rfl

theorem of_assign {name : String} {ty : Option Ty} {e : Expr} {pos : Option Position}
    (h : Lowers ret S n [.expr (.assign name ty e pos)] g S' n') :
    ∃ is k v, g = .emits is (.bind k v .fall) ∧ S' = S.insert name (.slot (Flow.slot k v)) := by
  cases h with
  | value he => cases he
  | assign _ _ hss =>
    cases hss
    exact ⟨_, _, _, rfl, rfl⟩

theorem isBranch {c : Conditional} (h : Lowers ret S n [.branch c] g S' n') : g.IsBranch := by
  cases h with
  | when _ _ _ hss =>
    cases hss
    exact .when _ _ _
  | either _ _ _ _ hss | chain _ _ _ _ hss =>
    cases hss
    exact .either _ _ _ _ _

end Lowers

/-! ## Blocks behind a conditional -/

/-- `Branched bs b bs' next`: of the blocks `bs`, with block `b` as the current one, a conditional
has made the blocks `bs'`, with block `next` as the current one. -/
structure Branched (bs : List Block) (b : Nat) (bs' : List Block) (next : Nat) : Prop where
  ended : ∃ block, bs'[b]? = some block ∧ block.isClosed = true
  kept : ∀ i < bs.length, i ≠ b → bs'[i]? = bs[i]?
  closed : ∀ i block, bs.length ≤ i → i ≠ next → bs'[i]? = some block → block.isClosed = true
  added : bs.length ≤ next
  opened : ∃ label, bs'[next]? = some (.empty label)

namespace IR.Flow

theorem closed_case (g : Flow) (base : String) (i n : Nat) (t : IR.Terminator) :
    ∀ block ∈ g.block base i n (some t) :: g.blocks n (some t), block.isClosed = true :=
  List.forall_mem_cons.mpr ⟨isSome_terminator g n rfl, ended_blocks g n rfl⟩

namespace IsBranch

variable {g : Flow}

theorem isSome_terminator (h : g.IsBranch) (n : Nat) : (g.terminator n none).isSome = true := by
  cases h <;> simp [terminator]

/-- Of the new blocks of a conditional all but one have ended: that one is empty, and the flow ends
in it. -/
theorem blocks_eq (h : g.IsBranch) (n : Nat) :
    ∃ before label after, g.blocks n none = before ++ .empty label :: after ∧
      (∀ b, g.last b n = n + before.length) ∧ (∀ block ∈ before, block.isClosed = true) ∧
      ∀ block ∈ after, block.isClosed = true := by
  cases h with
  | when is cond yes =>
    refine ⟨_, nextLabel n yes, [], blocks_emits .., ?_, closed_case _ _ _ _ _, by simp⟩
    intro b
    simp only [last_emits, last, List.length_cons, length_blocks]
    omega
  | either is cond yes base no =>
    refine ⟨_, nextLabel n yes, _, (blocks_emits ..).trans (List.append_nil _), ?_,
      closed_case _ _ _ _ _, closed_case _ _ _ _ _⟩
    intro b
    simp only [last_emits, last, List.length_cons, length_blocks]
    omega

theorem branched (h : g.IsBranch) {bs : List Block} {b : Nat} (hb : b < bs.length) :
    Branched bs b (g.spread none bs b) (g.last b bs.length) := by
  obtain ⟨before, label, after, hblocks, hlast, hbefore, hafter⟩ := h.blocks_eq bs.length
  rw [hlast]
  refine ⟨⟨g.into bs.length none bs[b], ?_, h.isSome_terminator _⟩,
    fun i hi hne => getElem?_spread g hi hne, ?_, by omega, label, ?_⟩
  · rw [spread, List.getElem?_append_left (by simpa using hb)]
    simp [hb]
  · -- A new block stands before or behind the one that the flow ends in.
    intro i block hi hne hget
    rw [spread, hblocks, List.getElem?_append_right (by simpa using hi), List.length_modify] at hget
    rcases Nat.lt_or_gt_of_ne (show i - bs.length ≠ before.length by omega) with hlt | hgt
    · rw [List.getElem?_append_left hlt] at hget
      exact hbefore _ (List.mem_of_getElem? hget)
    · rw [List.getElem?_append_right (by omega), List.getElem?_cons, if_neg (by omega)] at hget
      exact hafter _ (List.mem_of_getElem? hget)
  · rw [spread, hblocks, List.getElem?_append_right (by simp)]
    simp

end IsBranch
end IR.Flow

/-! ## One statement in a frame -/

/-- From `F` to `F'` instructions are added to the current block, the last ones of which reserve
`storage` and put a value there. -/
def Frame.Reserves (F : Frame) (storage : Value) (F' : Frame) : Prop :=
  ∃ is k v, storage = Flow.slot k v ∧ F'.block = F.block ∧
    F'.code = F.code.emit F.block (is ++ Flow.reserve k v)

theorem Frame.Reserves.lt {F F' : Frame} {storage : Value} (h : F.Reserves storage F')
    (hF : F.block < F.code.blocks.length) : F'.block < F'.code.blocks.length := by
  obtain ⟨is, k, v, -, hblock, hcode⟩ := h
  simpa [hblock, hcode] using hF

namespace Lower

variable {F F' : Frame} {u : Unit}

theorem stmt_lt {s : Stmt} (hF : F.block < F.code.blocks.length) (h : stmt s F = .ok u F') :
    F'.block < F'.code.blocks.length := by
  obtain ⟨-, g, hF', -⟩ | ⟨-, rfl⟩ := stmt_flow s hF h
  · rw [hF']
    exact Frame.lt_spread hF
  · exact hF

theorem stmts_lt {ss : List Stmt} (hF : F.block < F.code.blocks.length)
    (h : stmts ss F = .ok u F') : F'.block < F'.code.blocks.length := by
  induction ss generalizing F with
  | nil =>
    obtain ⟨-, rfl⟩ := pure_eq_ok.mp h
    exact hF
  | cons s ss ih =>
    obtain ⟨_, F₁, h₁, h₂⟩ := seq_eq_ok.mp h
    exact ih (stmt_lt hF h₁) h₂

theorem params_lt {pos : Option Position} {ps : List (String × IR.Ty)}
    (hF : F.block < F.code.blocks.length) (h : params pos ps F = .ok u F') :
    F'.block < F'.code.blocks.length := by
  induction ps generalizing F with
  | nil =>
    obtain ⟨-, rfl⟩ := pure_eq_ok.mp h
    exact hF
  | cons p ps ih =>
    obtain ⟨_, F₁, h₁, h₂⟩ := seq_eq_ok.mp h
    obtain ⟨-, rfl⟩ := bind_eq_ok h₁
    exact ih (Frame.lt_spread hF) h₂

theorem stmt_scopes {s : Stmt} (hF : F.block < F.code.blocks.length) (h : stmt s F = .ok u F')
    (hs : s.target? = none) : F'.scopes = F.scopes := by
  obtain ⟨-, g, -, hg⟩ | ⟨-, rfl⟩ := stmt_flow s hF h
  · exact hg.single.scopes_eq hs
  · rfl

theorem assign_reserves {name : String} {ty : Option Ty} {e : Expr} {pos : Option Position}
    (h : assign name ty e pos F = .ok u F') :
    ∃ storage, F.Reserves storage F' ∧ F'.scopes = F.scopes.insert name (.slot storage) := by
  obtain ⟨ho, g, hF', hg⟩ := assign_flow h
  obtain ⟨is, k, v, rfl, hS⟩ := hg.single.of_assign
  have hopen : (F.emit is).Open := IR.Function.open_emit.mpr ho
  have hcode := congrArg Frame.code (Frame.reserve_eq_spread hopen k v)
  refine ⟨_, ⟨is, k, v, rfl, ?_, ?_⟩, hS⟩
  · rw [hF']
    simp [Frame.spread, Flow.last]
  · rw [hF', ← Frame.emit_spread]
    refine hcode.symm.trans ?_
    simp [Frame.emit]

end Lower

/-! ## Generators inside the body of a function -/

namespace Generator

/-- `g.Inside id F`: the body of the function of index `id` is being lowered, and `F` is its
frame. -/
structure Inside (g : Generator) (id : Nat) (F : Frame) : Prop where
  code : g.module.functions[id]? = some F.code
  scopes : g.scopes = F.scopes
  current : g.current = some (id, F.block)
  block : F.block < F.code.blocks.length

/-- A generator with a frame for the function of index `id`. -/
def withFrame (g : Generator) (id : Nat) (F : Frame) : Generator :=
  ⟨g.module.setFunction id F.code, F.scopes, some (id, F.block)⟩

/-- `g.Runs act a g'`: in the body that is being lowered the action `act` gives `a` and takes `g` to
`g'`. -/
def Runs {α : Type} (g : Generator) (act : Lower α) (a : α) (g' : Generator) : Prop :=
  ∃ id F F', g.Inside id F ∧ act F = .ok a F' ∧ g' = g.withFrame id F'

/-- From `g` to `g'` the last instructions that are added reserve `storage`. -/
def Reserves (g : Generator) (storage : Value) (g' : Generator) : Prop :=
  ∃ id F F', g.Inside id F ∧ g'.Inside id F' ∧ F.Reserves storage F'

/-- `g.LastAssigns name ss storage g'`: statements `ss` take `g` to `g'`, and the last one of them
that assigns to `name` reserves `storage`. -/
inductive LastAssigns (g : Generator) (name : String) :
    List Stmt → Value → Generator → Prop where
  | mk {g₁ g₂ g' : Generator} {before after : List Stmt} {ty : Option Ty} {value : Expr}
      {pos : Option Position} {storage : Value} (hbefore : g.Runs (Lower.stmts before) () g₁)
      (hassign : g₁.Runs (Lower.assign name ty value pos) () g₂)
      (hstorage : g₁.Reserves storage g₂) (hafter : g₂.Runs (Lower.stmts after) () g')
      (hlast : name ∉ Stmt.targets after) :
      LastAssigns g name (before ++ .expr (.assign name ty value pos) :: after) storage g'

/-- From `g` to `g'` a conditional is added to the current function, and no other function
changes. -/
def Branches (g g' : Generator) : Prop :=
  ∃ id b next f f', g.current = some (id, b) ∧ g'.current = some (id, next) ∧
    g.module.functions[id]? = some f ∧ g'.module.functions[id]? = some f' ∧
    (∀ j ≠ id, g'.module.functions[j]? = g.module.functions[j]?) ∧
    Branched f.blocks b f'.blocks next

variable {g g' : Generator} {id : Nat} {F F' : Frame} {α β : Type}

theorem inside_withFrame (hid : id < g.module.functions.length)
    (hF : F.block < F.code.blocks.length) : (g.withFrame id F).Inside id F where
  code := by simp [withFrame, IR.Module.setFunction, hid]
  scopes := rfl
  current := rfl
  block := hF

theorem withFrame_withFrame (g : Generator) (id : Nat) (F F' : Frame) :
    (g.withFrame id F).withFrame id F' = g.withFrame id F' := by
  simp [withFrame, IR.Module.setFunction]

namespace Inside

theorem lt (hg : g.Inside id F) : id < g.module.functions.length :=
  (List.getElem?_eq_some_iff.mp hg.code).1

theorem unique {id' : Nat} (hg : g.Inside id F) (hg' : g.Inside id' F') : id' = id ∧ F' = F := by
  obtain ⟨code, scopes, block⟩ := F
  obtain ⟨code', scopes', block'⟩ := F'
  obtain ⟨rfl, rfl⟩ : id' = id ∧ block' = block := by
    simpa using hg'.current.symm.trans hg.current
  obtain rfl : code' = code := by simpa using hg'.code.symm.trans hg.code
  obtain rfl : scopes' = scopes := hg'.scopes.symm.trans hg.scopes
  exact ⟨rfl, rfl⟩

theorem withFrame_eq (hg : g.Inside id F) : g.withFrame id F = g := by
  obtain ⟨module, scopes, current⟩ := g
  obtain ⟨hlt, hcode⟩ := List.getElem?_eq_some_iff.mp hg.code
  obtain rfl : scopes = F.scopes := hg.scopes
  obtain rfl : current = some (id, F.block) := hg.current
  simp [withFrame, IR.Module.setFunction, ← hcode]

theorem runs_iff (hg : g.Inside id F) {act : Lower α} {a : α} :
    g.Runs act a g' ↔ ∃ F', act F = .ok a F' ∧ g' = g.withFrame id F' := by
  constructor
  · rintro ⟨id', F₁, F', hg', h, rfl⟩
    obtain ⟨rfl, rfl⟩ := hg.unique hg'
    exact ⟨F', h, rfl⟩
  · rintro ⟨F', h, rfl⟩
    exact ⟨id, F, F', hg, h, rfl⟩

/-- One action after the other, if the first one does not leave the blocks of the function. -/
theorem runs_seq (hg : g.Inside id F) {x : Lower α} {k : α → Lower β} {b : β}
    (hx : ∀ {a F'}, x F = .ok a F' → F'.block < F'.code.blocks.length) :
    g.Runs (x >>= k) b g' ↔ ∃ a g₁, g.Runs x a g₁ ∧ g₁.Runs (k a) b g' := by
  simp only [hg.runs_iff, Lower.seq_eq_ok]
  constructor
  · rintro ⟨F', ⟨a, F₁, h₁, h₂⟩, rfl⟩
    refine ⟨a, _, ⟨F₁, h₁, rfl⟩, (inside_withFrame hg.lt (hx h₁)).runs_iff.mpr ⟨F', h₂, ?_⟩⟩
    rw [withFrame_withFrame]
  · rintro ⟨a, g₁, ⟨F₁, h₁, rfl⟩, hk⟩
    obtain ⟨F', h₂, rfl⟩ := (inside_withFrame hg.lt (hx h₁)).runs_iff.mp hk
    exact ⟨F', ⟨a, F₁, h₁, h₂⟩, withFrame_withFrame ..⟩

end Inside

theorem Runs.inside {act : Lower α} {a : α} (h : g.Runs act a g') : ∃ id F, g.Inside id F := by
  obtain ⟨id, F, -, hg, -⟩ := h
  exact ⟨id, F, hg⟩

theorem runs_nil (hg : g.Inside id F) : g.Runs (Lower.stmts []) () g' ↔ g' = g := by
  simp only [hg.runs_iff, Lower.stmts, Lower.pure_eq_ok, true_and]
  constructor
  · rintro ⟨F', rfl, rfl⟩
    exact hg.withFrame_eq
  · rintro rfl
    exact ⟨F, rfl, hg.withFrame_eq.symm⟩

theorem runs_cons (hg : g.Inside id F) {s : Stmt} {ss : List Stmt} :
    g.Runs (Lower.stmts (s :: ss)) () g' ↔
      ∃ g₁, g.Runs (Lower.stmt s) () g₁ ∧ g₁.Runs (Lower.stmts ss) () g' := by
  rw [Lower.stmts, hg.runs_seq (Lower.stmt_lt hg.block)]
  exact ⟨fun ⟨_, h⟩ => h, fun h => ⟨(), h⟩⟩

theorem runs_body (hg : g.Inside id F) {d : Declaration} :
    g.Runs (Lower.body d) () g' ↔ ∃ g₁ g₂, g.Runs (Lower.params d.pos F.code.params) () g₁ ∧
      g₁.Runs (Lower.stmts d.body) () g₂ ∧ g₂.Runs (Lower.finish d.pos) () g' := by
  have hbody : g.Runs (Lower.body d) () g' ↔ g.Runs (do
      Lower.params d.pos F.code.params
      Lower.stmts d.body
      Lower.finish d.pos) () g' := by
    simp [hg.runs_iff, Lower.body, Lower.seq_eq_ok, Lower.get_eq_ok]
  rw [hbody, hg.runs_seq (Lower.params_lt hg.block)]
  constructor
  · rintro ⟨_, g₁, h₁, h⟩
    obtain ⟨id₁, F₁, hg₁⟩ := h.inside
    obtain ⟨_, g₂, h₂, h₃⟩ := (hg₁.runs_seq (Lower.stmts_lt hg₁.block)).mp h
    exact ⟨g₁, g₂, h₁, h₂, h₃⟩
  · rintro ⟨g₁, g₂, h₁, h₂, h₃⟩
    obtain ⟨id₁, F₁, hg₁⟩ := h₂.inside
    exact ⟨(), g₁, h₁, (hg₁.runs_seq (Lower.stmts_lt hg₁.block)).mpr ⟨(), g₂, h₂, h₃⟩⟩

/-- The body of a function is lowered from its entry block on, in a scope of its own. -/
theorem define_eq_ok {d : Declaration} {u : Unit} :
    define id d g = .ok u g' ↔ ∃ f g₁, g.module.functions[id]? = some f ∧
      (g.withFrame id ⟨f.entry, g.scopes.reset.push, 0⟩).Runs (Lower.body d) () g₁ ∧
      g' = ⟨g₁.module, g₁.scopes.pop, none⟩ := by
  cases hf : g.module.functions[id]? with
  | none => simp [define, IR.Module.function, hf]
  | some f =>
    have hlt : (0 : Nat) < f.entry.blocks.length := by
      unfold IR.Function.entry
      split <;> simp_all
    have hg : (g.withFrame id ⟨f.entry, g.scopes.reset.push, 0⟩).Inside id _ :=
      inside_withFrame (List.getElem?_eq_some_iff.mp hf).1 hlt
    constructor
    · intro h
      simp only [define, IR.Module.function, hf] at h
      cases hb : Lower.body d ⟨f.entry, g.scopes.reset.push, 0⟩ with
      | error e F => simp [hb] at h
      | ok v F =>
        simp only [hb, EStateM.Result.ok.injEq] at h
        refine ⟨f, _, rfl, hg.runs_iff.mpr ⟨F, hb, rfl⟩, ?_⟩
        rw [withFrame_withFrame, ← h.2]
        rfl
    · rintro ⟨_, g₁, ⟨rfl⟩, h, rfl⟩
      obtain ⟨F, hb, rfl⟩ := hg.runs_iff.mp h
      rw [withFrame_withFrame]
      simp [define, IR.Module.function, hf, hb, withFrame]

/-! ## Scopes -/

theorem scopes_of_stmt {s : Stmt} (h : g.Runs (Lower.stmt s) () g') (hs : s.target? = none) :
    g'.scopes = g.scopes := by
  obtain ⟨id, F, F', hg, h, rfl⟩ := h
  exact (Lower.stmt_scopes hg.block h hs).trans hg.scopes.symm

theorem reserves_of_assign {name : String} {ty : Option Ty} {value : Expr} {pos : Option Position}
    (h : g.Runs (Lower.assign name ty value pos) () g') :
    ∃ storage, g.Reserves storage g' ∧ g'.scopes = g.scopes.insert name (.slot storage) := by
  obtain ⟨id, F, F', hg, h, rfl⟩ := h
  obtain ⟨storage, hres, hscopes⟩ := Lower.assign_reserves h
  refine ⟨storage, ⟨id, F, F', hg, inside_withFrame hg.lt (hres.lt hg.block), hres⟩, ?_⟩
  rw [hg.scopes]
  exact hscopes

theorem LastAssigns.cons {g₁ : Generator} {name : String} {s : Stmt} {ss : List Stmt}
    {storage : Value} (hs : g.Runs (Lower.stmt s) () g₁) (h : g₁.LastAssigns name ss storage g') :
    g.LastAssigns name (s :: ss) storage g' := by
  obtain ⟨hbefore, hassign, hstorage, hafter, hlast⟩ := h
  obtain ⟨id, F, hg⟩ := hs.inside
  exact (.mk ((runs_cons hg).mpr ⟨g₁, hs, hbefore⟩) hassign hstorage hafter hlast :
    g.LastAssigns name (s :: _ ++ _) storage g')

/-- Statements only bind the names that they assign to, and only in the innermost scope. -/
theorem scopes_of_stmts {ss : List Stmt} {top : Scope Binding} {outer : List (Scope Binding)}
    (h : g.Runs (Lower.stmts ss) () g') (htop : g.scopes.all = top :: outer) :
    ∃ top', g'.scopes.all = top' :: outer ∧
      (∀ name ∉ Stmt.targets ss, top'.lookup name = top.lookup name) ∧
      ∀ name ∈ Stmt.targets ss, ∃ storage, g.LastAssigns name ss storage g' ∧
        top'.lookup name = some (.slot storage) := by
  induction ss generalizing g top with
  | nil =>
    obtain ⟨id, F, hg⟩ := h.inside
    obtain rfl := (runs_nil hg).mp h
    exact ⟨top, htop, fun _ _ => rfl, by simp [Stmt.targets]⟩
  | cons s ss ih =>
    obtain ⟨id, F, hg⟩ := h.inside
    obtain ⟨g₁, hs, hss⟩ := (runs_cons hg).mp h
    cases ht : s.target? with
    | none =>
      have htargets : Stmt.targets (s :: ss) = Stmt.targets ss := List.filterMap_cons_none ht
      rw [← scopes_of_stmt hs ht] at htop
      obtain ⟨top', hall, hkept, hbound⟩ := ih hss htop
      rw [htargets]
      refine ⟨top', hall, hkept, fun name hname => ?_⟩
      obtain ⟨storage, hlast, hlookup⟩ := hbound name hname
      exact ⟨storage, hlast.cons hs, hlookup⟩
    | some bound =>
      obtain ⟨ty, value, pos, rfl⟩ := Stmt.eq_assign ht
      have htargets : Stmt.targets (.expr (.assign bound ty value pos) :: ss) =
          bound :: Stmt.targets ss := List.filterMap_cons_some ht
      obtain ⟨storage, hres, hscopes⟩ := reserves_of_assign hs
      have hall₁ := Scopes.all_insert htop bound (.slot storage)
      rw [← hscopes] at hall₁
      obtain ⟨top', hall, hkept, hbound⟩ := ih hss hall₁
      rw [htargets]
      -- What the first statement binds stands unless a later one binds the same name.
      refine ⟨top', hall, fun name hname => ?_, fun name hname => ?_⟩
      · have hne : name ≠ bound := List.ne_of_not_mem_cons hname
        rw [hkept name (List.not_mem_of_not_mem_cons hname), List.lookup_cons,
          beq_false_of_ne hne]
      · by_cases hin : name ∈ Stmt.targets ss
        · obtain ⟨storage', hlast, hlookup⟩ := hbound name hin
          exact ⟨storage', hlast.cons hs, hlookup⟩
        · obtain rfl : name = bound := (List.mem_cons.mp hname).resolve_right hin
          refine ⟨storage, .mk ((runs_nil hg).mpr rfl) hs hres hss hin, ?_⟩
          rw [hkept name hin]
          exact List.lookup_cons_self

/-! ## Blocks -/

theorem branches_of_branch {c : Conditional} (h : g.Runs (Lower.stmt (.branch c)) () g') :
    g.Branches g' := by
  obtain ⟨id, F, F', hg, h, rfl⟩ := h
  simp only [Lower.stmt, Lower.seq_eq_ok, Lower.pure_eq_ok] at h
  obtain ⟨next, F₁, h, -, rfl⟩ := h
  obtain ⟨-, flow, rfl, -, -, hc⟩ := Lower.conditional_flow c hg.block h
  refine ⟨id, F.block, _, F.code, _, hg.current, rfl, hg.code,
    (inside_withFrame hg.lt (Frame.lt_spread hg.block)).code, ?_,
    hc.single.isBranch.branched hg.block⟩
  intro j hj
  simp [withFrame, IR.Module.setFunction, List.getElem?_set_ne hj.symm]

/-- Statements keep the scopes around them and bind the names that they assign to, each to the
storage of its last assignment. A conditional keeps all scopes, all other functions and all blocks
but the current one; it goes on in a new block, and nothing else of what it has added is open. -/
theorem effect_of_statements (g g' : Generator) :
    (∀ ss, g.Runs (Lower.stmts ss) () g' →
      g'.scopes.depth = g.scopes.depth ∧ ∃ top top' outer, g.scopes.all = top :: outer ∧
        g'.scopes.all = top' :: outer ∧
        (∀ name ∉ Stmt.targets ss, top'.lookup name = top.lookup name) ∧
        ∀ name ∈ Stmt.targets ss, ∃ storage, g.LastAssigns name ss storage g' ∧
          top'.lookup name = some (.slot storage)) ∧
    ∀ c, g.Runs (Lower.stmt (.branch c)) () g' → g'.scopes = g.scopes ∧ g.Branches g' := by
  refine ⟨?_, fun c h => ⟨scopes_of_stmt h rfl, branches_of_branch h⟩⟩
  intro ss h
  obtain ⟨top, outer, htop⟩ := g.scopes.exists_all
  obtain ⟨top', htop', hkept, hbound⟩ := scopes_of_stmts h htop
  refine ⟨?_, top, top', outer, htop, htop', hkept, hbound⟩
  simp [Scopes.depth_eq, htop, htop']

end Generator

/-- A chain of two conditionals, with a variable in each body. -/
def Conditional.sample : Conditional where
  guard := .binary .lt (.var "n" none) (.literal (.int 3) none) none
  body := [.expr (.assign "x" none (.literal (.bool true) none) none)]
  otherwise := .chain
    { guard := .var "n" none
      body := [.expr (.assign "y" none (.var "x" none) none), .expr (.return [] none)]
      otherwise := .nothing
      pos := none }
  pos := none

/-- A function that assigns to a variable before, inside and behind a chain of conditionals. -/
def Declaration.sample : Declaration where
  name := "shadow"
  params := [⟨"n", .i32⟩]
  returns := []
  body :=
    [.expr (.assign "x" none (.literal (.int 1) none) none), .branch .sample,
     .expr (.assign "x" (some .f64) (.var "n" none) none)]
  pos := none

namespace Generator

/-- A generator that has seen the header of the sample. -/
def declaredSample : Generator := ⟨⟨"sample", [Declaration.sample.header]⟩, .empty, none⟩

theorem exists_define_sample : ∃ g, define 0 .sample declaredSample = .ok () g := by
  cases h : define 0 .sample declaredSample with
  | ok u g => exact ⟨g, rfl⟩
  | error e g =>
    have hok : (define 0 .sample).run' declaredSample ≠ none := by decide +kernel
    exact absurd (run'_eq_none.mpr ⟨e, g, h⟩) hok

/-- While the body of the sample is lowered its conditional keeps all scopes, and in the end `x` is
bound to the storage of the second assignment. -/
theorem effect_of_statements_sample : ∃ g g₁ g₂ g' : Generator,
    g.Runs (Lower.stmts Declaration.sample.body) () g' ∧ g'.scopes.depth = g.scopes.depth ∧
    (∃ top outer storage, g'.scopes.all = top :: outer ∧ top.lookup "x" = some (.slot storage) ∧
      g.LastAssigns "x" Declaration.sample.body storage g') ∧
    g₁.Runs (Lower.stmt (.branch .sample)) () g₂ ∧ g₂.scopes = g₁.scopes ∧ g₁.Branches g₂ := by
  obtain ⟨_, hdefine⟩ := exists_define_sample
  obtain ⟨f, _, -, hbody, -⟩ := define_eq_ok.mp hdefine
  obtain ⟨_, _, hstart⟩ := hbody.inside
  obtain ⟨g, g', -, hstmts, -⟩ := (runs_body hstart).mp hbody
  obtain ⟨_, _, hg⟩ := hstmts.inside
  obtain ⟨g₁, -, htail⟩ := (runs_cons hg).mp hstmts
  obtain ⟨_, _, hg₁⟩ := htail.inside
  obtain ⟨g₂, hbranch, -⟩ := (runs_cons hg₁).mp htail
  obtain ⟨hdepth, -, top, outer, -, htop, -, hbound⟩ := (effect_of_statements g g').1 _ hstmts
  obtain ⟨storage, hlast, hlookup⟩ := hbound "x" (by decide)
  exact ⟨g, g₁, g₂, g', hstmts, hdepth, ⟨top, outer, storage, htop, hlookup, hlast⟩, hbranch,
    (effect_of_statements g₁ g₂).2 _ hbranch⟩

end Generator
end ProcLang

import ProcLang.Lowering.Stmt
import ProcLang.Proofs.IR.Flow
import ProcLang.Proofs.Lowering.Emission
import ProcLang.Proofs.Scope

/-!
# The code of statements

The blocks that lowering a list of statements makes are the layout of a structured flow. `Lowers`
says which flow: conditionals stay nested, so that a proof about lowered code follows the shape of
the program and not the order in which blocks are made and ended.

## Main definitions

* `Lowers` — the flow of a list of statements.
* `Frame.spread` — a frame behind the layout of a flow.
-/
namespace ProcLang

open IR (Instr Value Operation Flow Block blockLabel)

/-- `Lowers ret S n ss g S' n'`: in a function that returns `ret` the statements `ss` become the
flow `g`. The names in scope are those of `S` before and of `S'` behind, the next temporary is `n`
before and `n'` behind. Statements behind a return have no code. -/
inductive Lowers (ret : IR.Ty) :
    Scopes Binding → Nat → List Stmt → Flow → Scopes Binding → Nat → Prop where
  | nil (S : Scopes Binding) (n : Nat) : Lowers ret S n [] .fall S n
  | value {S S' : Scopes Binding} {n n₁ n' : Nat} {e : Expr} {ss : List Stmt} {is : List Instr}
      {v : Value} {g : Flow} (he : Emits S n e is v n₁) (hss : Lowers ret S n₁ ss g S' n') :
      Lowers ret S n (.expr e :: ss) (.emits is g) S' n'
  | voidCall {S S' : Scopes Binding} {n n₁ n' : Nat} {name : String} {args : List Expr}
      {pos : Option Position} {ss : List Stmt} {sig : IR.Signature} {is : List Instr}
      {vs : List Value} {g : Flow} (hs : S.lookup? name = some (.function sig))
      (hret : sig.ret.isVoid = true) (ha : EmitsAll S n args sig.params is vs n₁)
      (hss : Lowers ret S n₁ ss g S' n') :
      Lowers ret S n (.expr (.call name args pos) :: ss)
        (.emits (is ++ [⟨none, .call sig.name sig.ret vs⟩]) g) S' n'
  | assign {S S' : Scopes Binding} {n n₁ n₂ n' : Nat} {name : String} {ty : Option Ty} {e : Expr}
      {pos : Option Position} {ss : List Stmt} {is is' : List Instr} {v w : Value} {g : Flow}
      (he : Emits S n e is v n₁) (hc : Casts n₁ v (ty.elim v.ty Ty.lower) is' w n₂)
      (hss : Lowers ret (S.insert name (.slot (Flow.slot n₂ w))) (n₂ + 1) ss g S' n') :
      Lowers ret S n (.expr (.assign name ty e pos) :: ss) (.emits (is ++ is') (.bind n₂ w g)) S' n'
  | returnNothing {S : Scopes Binding} {n : Nat} {pos : Option Position} {ss : List Stmt}
      (hret : ret.isVoid = true) : Lowers ret S n (.expr (.return [] pos) :: ss) (.ret none) S n
  | returnValue {S : Scopes Binding} {n n₁ n₂ : Nat} {e : Expr} {es : List Expr}
      {pos : Option Position} {ss : List Stmt} {is is' : List Instr} {v w : Value}
      (hret : ret.isVoid = false) (he : Emits S n e is v n₁) (hc : Casts n₁ v ret is' w n₂) :
      Lowers ret S n (.expr (.return (e :: es) pos) :: ss) (.emits (is ++ is') (.ret (some w))) S n₂
  | when {S S₁ S' : Scopes Binding} {n n₁ n₂ n₃ n' : Nat} {guard : Expr} {body : List Stmt}
      {pos : Option Position} {ss : List Stmt} {is is' : List Instr} {v c : Value} {yes g : Flow}
      (he : Emits S n guard is v n₁) (hc : Casts n₁ v .i1 is' c n₂)
      (hyes : Lowers ret S.push n₂ body yes S₁ n₃) (hss : Lowers ret S n₃ ss g S' n') :
      Lowers ret S n (.branch ⟨guard, body, .nothing, pos⟩ :: ss)
        (.emits (is ++ is') (.when c yes g)) S' n'
  | either {S S₁ S₂ S' : Scopes Binding} {n n₁ n₂ n₃ n₄ n' : Nat} {guard : Expr}
      {body other : List Stmt} {pos : Option Position} {ss : List Stmt} {is is' : List Instr}
      {v c : Value} {yes no g : Flow} (he : Emits S n guard is v n₁) (hc : Casts n₁ v .i1 is' c n₂)
      (hyes : Lowers ret S.push n₂ body yes S₁ n₃) (hno : Lowers ret S.push n₃ other no S₂ n₄)
      (hss : Lowers ret S n₄ ss g S' n') :
      Lowers ret S n (.branch ⟨guard, body, .block other, pos⟩ :: ss)
        (.emits (is ++ is') (.either c yes "if.false" no g)) S' n'
  | chain {S S₁ S₂ S' : Scopes Binding} {n n₁ n₂ n₃ n₄ n' : Nat} {guard : Expr}
      {body : List Stmt} {next : Conditional} {pos : Option Position} {ss : List Stmt}
      {is is' : List Instr} {v c : Value} {yes no g : Flow} (he : Emits S n guard is v n₁)
      (hc : Casts n₁ v .i1 is' c n₂) (hyes : Lowers ret S.push n₂ body yes S₁ n₃)
      (hno : Lowers ret S n₃ [.branch next] no S₂ n₄) (hss : Lowers ret S n₄ ss g S' n') :
      Lowers ret S n (.branch ⟨guard, body, .chain next, pos⟩ :: ss)
        (.emits (is ++ is') (.either c yes "if.guard" no g)) S' n'

/-- Statements only bind names in the innermost scope. -/
theorem Lowers.scopes {ret : IR.Ty} {S S' : Scopes Binding} {n n' : Nat} {ss : List Stmt}
    {g : Flow} (h : Lowers ret S n ss g S' n') (hS : S.inner ≠ []) :
    S'.inner ≠ [] ∧ S'.pop = S.pop := by
  induction h with
  | nil | returnNothing | returnValue => exact ⟨hS, rfl⟩
  | value _ _ ih | voidCall _ _ _ _ ih => exact ih hS
  | when _ _ _ _ _ ih | either _ _ _ _ _ _ _ ih | chain _ _ _ _ _ _ _ ih => exact ih hS
  | assign _ _ _ ih =>
    obtain ⟨hne, hpop⟩ := ih (Scopes.inner_insert_ne_nil hS _ _)
    exact ⟨hne, hpop.trans (Scopes.pop_insert hS _ _)⟩

theorem Lowers.le {ret : IR.Ty} {S S' : Scopes Binding} {n n' : Nat} {ss : List Stmt} {g : Flow}
    (h : Lowers ret S n ss g S' n') : n ≤ n' := by
  induction h with
  | nil | returnNothing => exact Nat.le_refl _
  | value he _ ih => exact Nat.le_trans he.le ih
  | voidCall _ _ ha _ ih => exact Nat.le_trans ha.le ih
  | assign he hc _ ih =>
    have := he.le
    have := hc.temps
    omega
  | returnValue _ he hc =>
    have := he.le
    have := hc.temps
    omega
  | when he hc _ _ ihy ih =>
    have := he.le
    have := hc.temps
    omega
  | either he hc _ _ _ ihy ihn ih | chain he hc _ _ _ ihy ihn ih =>
    have := he.le
    have := hc.temps
    omega

/-! ## Frames -/

namespace Frame

/-- A frame behind the layout of a flow in its current block. -/
def spread (F : Frame) (g : Flow) (S : Scopes Binding) : Frame where
  code := { F.code with
    blocks := g.spread none F.code.blocks F.block
    temps := F.code.temps + g.defs }
  scopes := S
  block := g.last F.block F.code.blocks.length

/-- The current block is open. -/
def Open (F : Frame) : Prop := F.code.Open F.block

theorem Open.lt {F : Frame} (h : F.Open) : F.block < F.code.blocks.length := by
  obtain ⟨block, hb, -⟩ := h
  exact (List.getElem?_eq_some_iff.mp hb).1

theorem spread_spread {F : Frame} {g g' : Flow} {S S' : Scopes Binding}
    (hb : F.block < F.code.blocks.length) (hg : g.returns = false) :
    (F.spread g S).spread g' S' = F.spread (g.andThen g') S' := by
  simp only [spread, Flow.length_spread, Flow.spread_andThen g g' hg hb,
    Flow.last_andThen g g' hg, Flow.defs_andThen g g' hg, Nat.add_assoc]

theorem lt_spread {F : Frame} {g : Flow} {S : Scopes Binding}
    (hb : F.block < F.code.blocks.length) :
    (F.spread g S).block < (F.spread g S).code.blocks.length := by
  simpa [spread] using g.last_lt hb

theorem open_spread {F : Frame} {g : Flow} {S : Scopes Binding}
    (hb : F.block < F.code.blocks.length) : (F.spread g S).Open ↔ g.returns = false := by
  obtain ⟨block, hget, hclosed⟩ := g.exists_last hb
  simp only [Open, IR.Function.Open, spread, hget, ← hclosed, Block.isClosed]
  simp

/-- Instructions in an open block. -/
theorem emit_eq_spread {F : Frame} (h : F.Open) (is : List Instr) :
    F.emit is = F.spread (.emits is .fall) F.scopes := by
  obtain ⟨block, hget, ht⟩ := h
  have hget' : (F.code.blocks.modify F.block (·.append is))[F.block]? = some (block.append is) := by
    simp [hget]
  simp [emit, IR.Function.emit, spread, Flow.spread_emits, Flow.spread_fall hget' ht, Flow.defs,
    Flow.last]

theorem spread_fall {F : Frame} (h : F.Open) : F.spread .fall F.scopes = F := by
  rw [← Flow.emits_nil .fall, ← emit_eq_spread h]
  simp [emit]

/-- New storage in an open block. -/
theorem reserve_eq_spread {F : Frame} (h : F.Open) (k : Nat) (v : Value) :
    F.emit (Flow.reserve k v) = F.spread (.bind k v .fall) F.scopes := by
  rw [emit_eq_spread h]
  simp [spread, Flow.spread_emits, Flow.spread_bind, Flow.defs, Flow.reserve, IR.results, Flow.last]

theorem finish_eq_spread (F : Frame) (v : Option Value) :
    { F with code := F.code.finish F.block (.ret v) } = F.spread (.ret v) F.scopes := by
  have hinto : (Flow.ret v).into F.code.blocks.length none = (·.ended (.ret v)) := by
    funext block
    simp [Flow.into, Flow.instrs, Flow.terminator, Block.ended]
  simp [spread, Flow.spread, hinto, IR.Function.finish, Flow.blocks, Flow.defs, Flow.last]

end Frame

namespace Lower

variable {F F' : Frame}

theorem bind_eq_ok {pos : Option Position} {name : String} {v : Value} {u : Unit}
    (h : Lower.bind pos name v F = .ok u F') :
    F.Open ∧ F' = F.spread (.bind F.code.temps v .fall)
      (F.scopes.insert name (.slot (Flow.slot F.code.temps v))) := by
  simp only [Lower.bind, seq_eq_ok, build_eq_ok, perform_eq_ok, modify_eq_ok] at h
  obtain ⟨storage, F₁, ⟨code, ha, rfl⟩, -, F₂, ⟨code₂, hs, rfl⟩, rfl⟩ := h
  obtain ⟨ho, rfl, rfl⟩ := IR.Function.define_eq_ok.mp ha
  obtain ⟨-, rfl⟩ := IR.Function.perform_eq_ok.mp (IR.Function.store_ok hs).2
  refine ⟨ho, ?_⟩
  have hcode := congrArg Frame.code (Frame.reserve_eq_spread ho F.code.temps v)
  simp only [Frame.emit, Frame.spread] at hcode
  simp only [IR.Function.emit_emit, Frame.spread, ← hcode]
  rfl

theorem addBlock_eq_ok {label : String} {i : Nat} (hF : F.code.blocks ≠ [])
    (h : addBlock label F = .ok i F') :
    i = F.code.blocks.length ∧ F' = { F with code := { F.code with
      blocks := F.code.blocks ++ [.empty (blockLabel label F.code.blocks.length)] } } := by
  have hentry : F.code.entry = F.code := by
    unfold IR.Function.entry
    split
    · contradiction
    · rfl
  simp only [addBlock, IR.Function.addBlock, hentry, EStateM.Result.ok.injEq] at h
  exact ⟨h.1.symm, h.2.symm⟩

theorem isClosed_ok {f f' : IR.Function} {b : Nat} {closed : Bool}
    (h : (f.isClosed b).map (·, f) = .ok (closed, f')) :
    ∃ block, f.blocks[b]? = some block ∧ closed = block.isClosed ∧ f' = f := by
  unfold IR.Function.isClosed at h
  cases hb : f.block b with
  | error e => simp [hb, Except.map] at h
  | ok block =>
    simp only [hb, Except.map, Except.ok.injEq, Prod.mk.injEq] at h
    exact ⟨block, IR.Function.block_eq_ok.mp hb, h.1.symm, h.2.symm⟩

theorem branchIfOpen_eq_ok {pos : Option Position} {b target : Nat} {u : Unit} {next : Block}
    (hn : F.code.blocks[target]? = some next) (h : branchIfOpen pos b target F = .ok u F') :
    F' = { F with code := { F.code with
      blocks := F.code.blocks.modify b (·.goesOn (.br next.label)) } } := by
  simp only [branchIfOpen, seq_eq_ok, build_eq_ok] at h
  obtain ⟨closed, F₁, ⟨code, hc, rfl⟩, h⟩ := h
  obtain ⟨block, hget, rfl, rfl⟩ := isClosed_ok hc
  rw [IR.modify_eq_set hget, Block.goesOn]
  cases hclosed : block.isClosed with
  | true =>
    simp only [hclosed, if_true, pure_eq_ok] at h
    obtain ⟨hlt, rfl⟩ := List.getElem?_eq_some_iff.mp hget
    simp [← h.2]
  | false =>
    simp only [hclosed, Bool.false_eq_true, if_false, performAt_eq_ok] at h
    obtain ⟨code, hbr, rfl⟩ := h
    simp only [IR.Function.br, IR.Function.block_eq_ok.mpr hn] at hbr
    obtain ⟨-, rfl⟩ := IR.Function.terminate_eq_ok.mp hbr
    simp [IR.Function.finish, IR.modify_eq_set hget]

theorem condBr_eq_ok {f f' : IR.Function} {b yes no : Nat} {cond : Value}
    (h : f.condBr b cond yes no = .ok f') :
    ∃ block block', f.blocks[yes]? = some block ∧ f.blocks[no]? = some block' ∧ f.Open b ∧
      f' = f.finish b (.brIf cond block.label block'.label) := by
  unfold IR.Function.condBr at h
  split at h
  · cases hy : f.block yes with
    | error e => simp [hy] at h
    | ok block =>
      cases hn : f.block no with
      | error e => simp [hy, hn] at h
      | ok block' =>
        simp only [hy, hn] at h
        obtain ⟨ho, rfl⟩ := IR.Function.terminate_eq_ok.mp h
        exact ⟨block, block', IR.Function.block_eq_ok.mp hy, IR.Function.block_eq_ok.mp hn, ho, rfl⟩
  · cases h

end Lower

/-! ## One statement -/

/-- What one statement adds to the flow of those behind it. -/
def LowersOne (ret : IR.Ty) (S : Scopes Binding) (n : Nat) (s : Stmt) (g : Flow)
    (S' : Scopes Binding) (n' : Nat) : Prop :=
  (g.returns = true → ∀ ss, Lowers ret S n (s :: ss) g S' n') ∧
    (g.returns = false → ∀ {ss g' S'' n''}, Lowers ret S' n' ss g' S'' n'' →
      Lowers ret S n (s :: ss) (g.andThen g') S'' n'')

/-- The flow of the alternative of a conditional and the name of its first block. -/
inductive LowersOther (ret : IR.Ty) (S : Scopes Binding) (n : Nat) :
    Otherwise → String → Flow → Nat → Prop where
  | block {body : List Stmt} {g : Flow} {S' : Scopes Binding} {n' : Nat}
      (h : Lowers ret S.push n body g S' n') : LowersOther ret S n (.block body) "if.false" g n'
  | chain {c : Conditional} {g : Flow} {S' : Scopes Binding} {n' : Nat}
      (h : Lowers ret S n [.branch c] g S' n') : LowersOther ret S n (.chain c) "if.guard" g n'

namespace Frame

/-- A frame that has turned to a new block. -/
def fresh (F : Frame) (base : String) : Frame :=
  ⟨{ F.code with blocks := F.code.blocks ++ [.empty (blockLabel base F.code.blocks.length)] },
    F.scopes, F.code.blocks.length⟩

theorem open_fresh (F : Frame) (base : String) : (F.fresh base).Open :=
  ⟨_, IR.getElem?_concat rfl, rfl⟩

/-- A frame with a flow in a new block, which goes on to the block labelled `next`. -/
def addCase (F : Frame) (base : String) (g : Flow) (next : String) : Frame where
  code := { F.code with
    blocks := g.spread (some (.br next)) (F.fresh base).code.blocks F.code.blocks.length
    temps := F.code.temps + g.defs }
  scopes := F.scopes
  block := ((F.fresh base).spread g F.scopes).block

/-- A frame behind the first case of a conditional, with the block that follows the whole. -/
def addYes (F : Frame) (yes : Flow) : Frame :=
  let G := (F.fresh "if.true").spread yes F.scopes
  { G with code := { G.code with
    blocks := G.code.blocks ++ [.empty (Flow.nextLabel F.code.blocks.length yes)] } }

theorem length_addYes (F : Frame) (yes : Flow) :
    (F.addYes yes).code.blocks.length = F.code.blocks.length + 2 + yes.size := by
  simp [addYes, spread, fresh]
  omega

theorem emit_spread (F : Frame) (is : List Instr) (g : Flow) (S : Scopes Binding) :
    (F.emit is).spread g S = F.spread (.emits is g) S := by
  simp [spread, emit, IR.Function.emit, Flow.spread_emits, Nat.add_assoc]

end Frame

namespace Lower

variable {F F' : Frame}

theorem goOn_eq_addCase {pos : Option Position} {base : String} {g : Flow} {target : Nat} {u : Unit}
    {next : Block} (hn : F.code.blocks[target]? = some next)
    (h : branchIfOpen pos ((F.fresh base).spread g F.scopes).block target
      ((F.fresh base).spread g F.scopes) = .ok u F') :
    F' = F.addCase base g next.label := by
  have hlt := (List.getElem?_eq_some_iff.mp hn).1
  have hget : ((F.fresh base).spread g F.scopes).code.blocks[target]? = some next := by
    rw [← hn]
    simp only [Frame.spread, Frame.fresh]
    rw [Flow.getElem?_spread _ (by simp; omega) (by omega), List.getElem?_append_left hlt]
  rw [branchIfOpen_eq_ok hget h]
  simp only [Frame.spread, Frame.addCase]
  rw [Flow.spread_goesOn _ (by simp [Frame.fresh])]
  rfl

/-- A body in a scope of its own, given what the body does. -/
theorem inScope_flow {base : String} {b e : Nat} {ss : List Stmt} {body : Lower Unit}
    (hbody : ∀ {G G' : Frame} {u : Unit}, G.Open → body G = .ok u G' →
      ∃ g, G' = G.spread g G'.scopes ∧
        Lowers G.code.ret G.scopes G.code.temps ss g G'.scopes G'.code.temps)
    (hF : F.code.blocks ≠ []) {G : Frame} (ha : addBlock base F = .ok b G)
    (h : inScope b body G = .ok e F') :
    ∃ g S', Lowers F.code.ret F.scopes.push F.code.temps ss g S' F'.code.temps ∧
      b = F.code.blocks.length ∧ e = F'.block ∧ F' = (F.fresh base).spread g F.scopes := by
  obtain ⟨rfl, rfl⟩ := addBlock_eq_ok hF ha
  simp only [inScope, enter, seq_eq_ok, modify_eq_ok, get_eq_ok, pure_eq_ok] at h
  obtain ⟨-, -, rfl, -, -, rfl, _, G', hb, -, -, rfl, _, _, ⟨rfl, rfl⟩, rfl, rfl⟩ := h
  obtain ⟨g, hG', hg⟩ := hbody (G := { F.fresh base with scopes := F.scopes.push })
    (F.open_fresh base) hb
  have hpop := (hg.scopes (by simp [Scopes.push])).2
  refine ⟨g, _, hg, rfl, rfl, ?_⟩
  rw [hpop, hG']
  rfl

theorem assign_flow {name : String} {ty : Option Ty} {e : Expr} {pos : Option Position} {u : Unit}
    (h : assign name ty e pos F = .ok u F') :
    F.Open ∧ ∃ g, F' = F.spread g F'.scopes ∧ LowersOne F.code.ret F.scopes F.code.temps
      (.expr (.assign name ty e pos)) g F'.scopes F'.code.temps := by
  simp only [assign, seq_eq_ok] at h
  obtain ⟨v, F₁, h₁, h⟩ := h
  obtain ⟨is, he, ha⟩ := expr_adds e h₁
  obtain ⟨w, F₂, is', hc, ha', h₃⟩ : ∃ w F₂ is',
      Casts F₁.code.temps v (ty.elim v.ty Ty.lower) is' w F₂.code.temps ∧ F₁.Adds is' F₂ ∧
        bind pos name w F₂ = .ok u F' := by
    cases ty with
    | some ty =>
      obtain ⟨w, F₂, h₂, h₃⟩ := seq_eq_ok.mp h
      obtain ⟨is', hc, ha'⟩ := cast_adds h₂
      exact ⟨w, F₂, is', hc, ha', h₃⟩
    | none =>
      obtain ⟨w, F₂, h₂, h₃⟩ := seq_eq_ok.mp h
      obtain ⟨rfl, rfl⟩ := pure_eq_ok.mp h₂
      exact ⟨_, _, [], .same rfl, .refl _, h₃⟩
  obtain ⟨ho, rfl⟩ := bind_eq_ok h₃
  have hadd := (ha.trans ha').1
  have hscopes : F₂.scopes = F.scopes := by rw [hadd]; rfl
  refine ⟨?_, .emits (is ++ is') (.bind F₂.code.temps w .fall), ?_, ?_, ?_⟩
  · rw [hadd] at ho
    exact IR.Function.open_emit.mp ho
  · rw [← Frame.emit_spread, ← hadd]
    rfl
  · simp [Flow.returns]
  · intro _ ss g' S'' n'' hss
    rw [Flow.andThen_emits]
    exact .assign he hc (hscopes ▸ hss)

/-- A return, which needs an open block. -/
theorem return_flow {values : List Expr} {pos : Option Position} {u : Unit}
    (h : «return» values pos F = .ok u F') :
    F.Open ∧ ∃ g, F' = F.spread g F'.scopes ∧ LowersOne F.code.ret F.scopes F.code.temps
      (.expr (.return values pos)) g F'.scopes F'.code.temps := by
  simp only [«return», seq_eq_ok, get_eq_ok] at h
  obtain ⟨_, _, ⟨rfl, rfl⟩, h⟩ := h
  cases values with
  | nil =>
    obtain ⟨code, hr, rfl⟩ := perform_eq_ok.mp h
    unfold IR.Function.retVoid at hr
    split at hr
    case isFalse => cases hr
    case isTrue hret =>
      obtain ⟨ho, rfl⟩ := IR.Function.terminate_eq_ok.mp hr
      exact ⟨ho, .ret none, Frame.finish_eq_spread F none, fun _ _ => .returnNothing hret,
        by simp [Flow.returns]⟩
  | cons first rest =>
    cases hret : F.code.ret.isVoid with
    | true => simp [hret] at h
    | false =>
      simp only [hret, Bool.false_eq_true, if_false, seq_eq_ok, perform_eq_ok] at h
      obtain ⟨v, F₁, h₁, w, F₂, h₂, code, hr, rfl⟩ := h
      obtain ⟨is, he, ha⟩ := expr_adds first h₁
      obtain ⟨is', hc, ha'⟩ := cast_adds h₂
      unfold IR.Function.retValue at hr
      split at hr
      case isFalse => cases hr
      case isTrue =>
        obtain ⟨ho, rfl⟩ := IR.Function.terminate_eq_ok.mp hr
        have hadd := (ha.trans ha').1
        rw [Frame.finish_eq_spread F₂ (some w)]
        refine ⟨?_, .emits (is ++ is') (.ret (some w)), ?_, ?_, by simp [Flow.returns]⟩
        · rw [hadd] at ho
          exact IR.Function.open_emit.mp ho
        · rw [← Frame.emit_spread, ← hadd]
          rfl
        · intro _ ss
          have hscopes : F₂.scopes = F.scopes := by rw [hadd]; rfl
          simp only [Frame.spread, hscopes]
          exact .returnValue hret he hc

/-- A statement that is no conditional: nothing if the current block has ended. -/
theorem exprStmt_flow (e : Expr) {u : Unit} (h : exprStmt e F = .ok u F') :
    F.Open ∧ (∃ g, F' = F.spread g F'.scopes ∧
      LowersOne F.code.ret F.scopes F.code.temps (.expr e) g F'.scopes F'.code.temps) ∨
    ¬ F.Open ∧ F' = F := by
  -- Instructions need an open block; without any the frame stays as it is.
  have hadds : ∀ {is : List Instr}, F.Adds is F' → (∀ {ss g' S'' n''},
      Lowers F.code.ret F.scopes F'.code.temps ss g' S'' n'' →
        Lowers F.code.ret F.scopes F.code.temps (.expr e :: ss) (.emits is g') S'' n'') →
      F.Open ∧ (∃ g, F' = F.spread g F'.scopes ∧
        LowersOne F.code.ret F.scopes F.code.temps (.expr e) g F'.scopes F'.code.temps) ∨
      ¬ F.Open ∧ F' = F := by
    intro is hadd hl
    by_cases ho : F.Open
    · refine .inl ⟨ho, .emits is .fall, ?_, by simp [Flow.returns], fun _ _ _ _ _ hss => ?_⟩
      · rw [hadd.scopes, ← Frame.emit_eq_spread ho]
        exact hadd.1
      · rw [hadd.scopes] at hss
        rw [Flow.andThen_emits]
        exact hl hss
    · have his : is = [] := Decidable.byContradiction fun his => ho (hadd.2 his)
      subst his
      exact .inr ⟨ho, hadd.1.trans (by simp [Frame.emit])⟩
  cases e with
  | assign => exact .inl (assign_flow h)
  | «return» => exact .inl (return_flow h)
  | call name args pos =>
    simp only [exprStmt, seq_eq_ok, pure_eq_ok] at h
    obtain ⟨r, F₂, hcall, -, rfl⟩ := h
    obtain ⟨sig, vs, F₁, hs, hcount, hargs, hcall⟩ := call_adds hcall
    obtain ⟨is, ha, hadd⟩ := exprs_adds args sig.params hcount hargs
    obtain ⟨hret, rfl, hadd'⟩ | ⟨hret, rfl, hadd'⟩ := hcall
    · refine hadds (hadd.trans hadd') fun hss => ?_
      rw [hadd'.temps] at hss
      exact .voidCall hs hret ha hss
    · refine hadds (hadd.trans hadd') fun hss => ?_
      rw [hadd'.temps] at hss
      exact .value (.call hs hret ha) hss
  | literal | var | binary =>
    simp only [exprStmt, seq_eq_ok, pure_eq_ok] at h
    obtain ⟨v, F₂, he, -, rfl⟩ := h
    obtain ⟨is, he, hadd⟩ := expr_adds _ he
    exact hadds hadd fun hss => .value he hss

section Ends

variable {pos : Option Position} {c : Value} {yes : Flow} {u u' : Unit} {G₁ G₂ : Frame}

/-- The end of a conditional: the block it started in and the one its first case ended in are told
where to go on. -/
theorem conditional_end {no : Nat} {G : Frame} {noLabel : String} {rest : List Block}
    (hF : F.block < F.code.blocks.length)
    (hG : G.code.blocks = (F.addYes yes).code.blocks ++ rest)
    (hno : ∀ block, G.code.blocks[no]? = some block → block.label = noLabel)
    (h₁ : performAt pos F.block (fun code b => code.condBr b c F.code.blocks.length no) G =
      .ok u G₁)
    (h₂ : branchIfOpen pos ((F.fresh "if.true").spread yes F.scopes).block
      (F.code.blocks.length + 1 + yes.size) G₁ = .ok u' G₂) :
    F.Open ∧ G₂ = { G with code := { G.code with
      blocks := yes.spread (some (.br (Flow.nextLabel F.code.blocks.length yes)))
        (F.code.blocks.modify F.block
          (·.ended (.brIf c (blockLabel "if.true" F.code.blocks.length) noLabel)) ++
            [.empty (blockLabel "if.true" F.code.blocks.length)])
        F.code.blocks.length ++ [.empty (Flow.nextLabel F.code.blocks.length yes)] ++ rest } } := by
  simp only [Frame.addYes, Frame.spread, Frame.fresh] at hG h₂
  obtain ⟨code, hcond, rfl⟩ := performAt_eq_ok.mp h₁
  obtain ⟨yesBlock, noBlock, hyes, hnob, ⟨block, hget, ht⟩, rfl⟩ := condBr_eq_ok hcond
  rw [hG, List.append_assoc, List.getElem?_append_left (by simp; omega)] at hyes hget
  have hlabel := yes.label_spread hyes (IR.getElem?_concat rfl)
  rw [Flow.getElem?_spread yes (by simp; omega) (by omega), List.getElem?_append_left hF] at hget
  have hnext : (G.code.finish F.block (.brIf c yesBlock.label noBlock.label)).blocks[
      F.code.blocks.length + 1 + yes.size]? =
        some (.empty (Flow.nextLabel F.code.blocks.length yes)) := by
    simp only [IR.Function.finish]
    rw [List.getElem?_modify_ne _ _ (by omega), hG, List.getElem?_append_left (by simp)]
    exact IR.getElem?_concat (by simp)
  refine ⟨⟨block, hget, ht⟩, ?_⟩
  rw [branchIfOpen_eq_ok hnext h₂]
  simp only [IR.Function.finish, hG, hlabel, hno noBlock hnob, List.append_assoc]
  have hmod := yes.modify_goesOn hF (·.ended (.brIf c (blockLabel "if.true" F.code.blocks.length)
    noLabel)) (.empty (blockLabel "if.true" F.code.blocks.length))
    ([.empty (Flow.nextLabel F.code.blocks.length yes)] ++ rest)
    (.br (Flow.nextLabel F.code.blocks.length yes))
  simpa using hmod

theorem when_end (hF : F.block < F.code.blocks.length)
    (h₁ : performAt pos F.block (fun code b => code.condBr b c F.code.blocks.length
      (F.code.blocks.length + 1 + yes.size)) (F.addYes yes) = .ok u G₁)
    (h₂ : branchIfOpen pos ((F.fresh "if.true").spread yes F.scopes).block
      (F.code.blocks.length + 1 + yes.size) G₁ = .ok u' G₂) :
    F.Open ∧ { G₂ with block := F.code.blocks.length + 1 + yes.size } =
      F.spread (.when c yes .fall) F.scopes := by
  have hno : ∀ block, (F.addYes yes).code.blocks[F.code.blocks.length + 1 + yes.size]? =
      some block → block.label = Flow.nextLabel F.code.blocks.length yes := by
    intro block hget
    simp only [Frame.addYes] at hget
    rw [IR.getElem?_concat (by simp [Frame.spread, Frame.fresh])] at hget
    cases hget
    rfl
  obtain ⟨ho, rfl⟩ := conditional_end hF (List.append_nil _).symm hno h₁ h₂
  refine ⟨ho, ?_⟩
  simp [Frame.addYes, Frame.spread, Frame.fresh, Flow.spread_when_fall, Flow.defs, Flow.last]

theorem either_end {base : String} {no : Flow} (hF : F.block < F.code.blocks.length)
    (h₁ : performAt pos F.block (fun code b => code.condBr b c F.code.blocks.length
      (F.addYes yes).code.blocks.length)
      ((F.addYes yes).addCase base no (Flow.nextLabel F.code.blocks.length yes)) = .ok u G₁)
    (h₂ : branchIfOpen pos ((F.fresh "if.true").spread yes F.scopes).block
      (F.code.blocks.length + 1 + yes.size) G₁ = .ok u' G₂) :
    F.Open ∧ { G₂ with block := F.code.blocks.length + 1 + yes.size } =
      F.spread (.either c yes base no .fall) F.scopes := by
  have hlen := F.length_addYes yes
  have hno : ∀ block, ((F.addYes yes).addCase base no
      (Flow.nextLabel F.code.blocks.length yes)).code.blocks[(F.addYes yes).code.blocks.length]? =
        some block → block.label = blockLabel base (F.addYes yes).code.blocks.length := by
    intro block hget
    exact no.label_spread hget (IR.getElem?_concat rfl)
  have hG : ((F.addYes yes).addCase base no (Flow.nextLabel F.code.blocks.length yes)).code.blocks =
      _ := Flow.spread_empty (r := []) rfl no (blockLabel base (F.addYes yes).code.blocks.length)
  obtain ⟨ho, rfl⟩ := conditional_end hF (hG.trans (List.append_assoc ..)) hno h₁ h₂
  have hspread : (Flow.either c yes base no .fall).spread none F.code.blocks F.block = _ :=
    Flow.spread_either_fall c yes base no
  rw [Flow.spread_empty (by simp; omega) no] at hspread
  refine ⟨ho, ?_⟩
  have hn : F.code.blocks.length + 1 + yes.size + 1 = F.code.blocks.length + 2 + yes.size := by
    omega
  have htemps : (F.addYes yes).code.temps + no.defs = F.code.temps + (yes.defs + no.defs) := by
    simp [Frame.addYes, Frame.spread, Frame.fresh, Nat.add_assoc]
  have hkept : ((F.addYes yes).code.name = F.code.name ∧ (F.addYes yes).code.ret = F.code.ret ∧
      (F.addYes yes).code.params = F.code.params) ∧ (F.addYes yes).scopes = F.scopes :=
    ⟨⟨rfl, rfl, rfl⟩, rfl⟩
  simpa [hlen, hn, hspread, htemps, Frame.spread, Frame.addCase, Flow.defs, Flow.last] using hkept

end Ends

mutual

theorem stmt_flow (s : Stmt) {F F' : Frame} {u : Unit} (hF : F.block < F.code.blocks.length)
    (h : stmt s F = .ok u F') :
    F.Open ∧ (∃ g, F' = F.spread g F'.scopes ∧
      LowersOne F.code.ret F.scopes F.code.temps s g F'.scopes F'.code.temps) ∨
    ¬ F.Open ∧ F' = F := by
  match s with
  | .expr e => exact exprStmt_flow e h
  | .branch c =>
    simp only [stmt, seq_eq_ok, pure_eq_ok] at h
    obtain ⟨next, F₁, h, -, rfl⟩ := h
    obtain ⟨ho, g, hF₁, -, -, hc⟩ := conditional_flow c hF h
    have hs : F₁.scopes = F.scopes := by rw [hF₁]; rfl
    exact .inl ⟨ho, g, by rw [hs]; exact hF₁, by rw [hs]; exact hc⟩

/-- Statements in an open block. -/
theorem stmts_flow (ss : List Stmt) {F F' : Frame} {u : Unit} (ho : F.Open)
    (h : stmts ss F = .ok u F') :
    ∃ g, F' = F.spread g F'.scopes ∧
      Lowers F.code.ret F.scopes F.code.temps ss g F'.scopes F'.code.temps := by
  match ss with
  | [] =>
    simp only [stmts, pure_eq_ok] at h
    obtain ⟨-, rfl⟩ := h
    exact ⟨.fall, (Frame.spread_fall ho).symm, .nil _ _⟩
  | s :: ss =>
    simp only [stmts, seq_eq_ok] at h
    obtain ⟨_, F₁, h₁, h₂⟩ := h
    obtain ⟨-, g, hF₁, hg⟩ | ⟨hno, -⟩ := stmt_flow s ho.lt h₁
    · cases hr : g.returns with
      | true =>
        have hclosed : ¬ F₁.Open := by
          rw [hF₁, Frame.open_spread ho.lt, hr]
          simp
        obtain rfl := stmts_closed ss (hF₁ ▸ Frame.lt_spread ho.lt) hclosed h₂
        exact ⟨g, hF₁, hg.1 hr ss⟩
      | false =>
        have hopen : F₁.Open := by
          rw [hF₁, Frame.open_spread ho.lt, hr]
        obtain ⟨g', hF', hg'⟩ := stmts_flow ss hopen h₂
        refine ⟨g.andThen g', ?_, ?_⟩
        · rw [hF', hF₁]
          exact Frame.spread_spread ho.lt hr
        · have hret : F₁.code.ret = F.code.ret := by rw [hF₁]; rfl
          exact hg.2 hr (hret ▸ hg')
    · exact absurd ho hno

/-- Statements in a block that has ended. -/
theorem stmts_closed (ss : List Stmt) {F F' : Frame} {u : Unit}
    (hF : F.block < F.code.blocks.length) (hc : ¬ F.Open) (h : stmts ss F = .ok u F') : F' = F := by
  match ss with
  | [] =>
    simp only [stmts, pure_eq_ok] at h
    exact h.2.symm
  | s :: ss =>
    simp only [stmts, seq_eq_ok] at h
    obtain ⟨_, F₁, h₁, h₂⟩ := h
    obtain ⟨ho, -⟩ | ⟨-, rfl⟩ := stmt_flow s hF h₁
    · exact absurd ho hc
    · exact stmts_closed ss hF hc h₂

/-- A conditional, which needs an open block. -/
theorem conditional_flow (c : Conditional) {F F' : Frame} {next : Nat}
    (hF : F.block < F.code.blocks.length) (h : conditional c F = .ok next F') :
    F.Open ∧ ∃ g, F' = F.spread g F.scopes ∧ next = F'.block ∧ g.returns = false ∧
      LowersOne F.code.ret F.scopes F.code.temps (.branch c) g F.scopes F'.code.temps := by
  match c with
  | ⟨guard, body, other, pos⟩ =>
    simp only [conditional, enter, seq_eq_ok, get_eq_ok, modify_eq_ok, pure_eq_ok] at h
    obtain ⟨v, F₁, h₁, c, F₂, h₂, _, _, ⟨rfl, rfl⟩, yes, F₃, h₃, yesEnd, F₄, h₄, next, F₅, h₅,
      no, F₆, h₆, _, F₇, h₇, _, F₈, h₈, -, F₉, rfl, rfl, rfl⟩ := h
    obtain ⟨is, he, ha⟩ := expr_adds guard h₁
    obtain ⟨is', hc, ha'⟩ := cast_adds h₂
    have hadd := (ha.trans ha').1
    have hlt : F₂.block < F₂.code.blocks.length := by simpa [hadd, Frame.emit] using hF
    have hne : F₂.code.blocks ≠ [] := List.ne_nil_of_length_pos (by omega)
    obtain ⟨yes, S₁, hyes, rfl, rfl, rfl⟩ := inScope_flow (stmts_flow body) hne h₃ h₄
    have hlen : ((F₂.fresh "if.true").spread yes F₂.scopes).code.blocks.length =
        F₂.code.blocks.length + 1 + yes.size := by simp [Frame.spread, Frame.fresh]
    obtain ⟨rfl, hF₅⟩ := addBlock_eq_ok (List.ne_nil_of_length_pos (by omega)) h₅
    obtain rfl : F₅ = F₂.addYes yes := by
      rw [hF₅, hlen]
      rfl
    rw [hlen] at h₆ h₈
    have hnext : (F₂.addYes yes).code.blocks[F₂.code.blocks.length + 1 + yes.size]? =
        some (.empty (Flow.nextLabel F₂.code.blocks.length yes)) :=
      IR.getElem?_concat hlen.symm
    have hopen : F₂.Open → F.Open := by
      rw [hadd]
      exact IR.Function.open_emit.mp
    have hscopes : F₂.scopes = F.scopes := by rw [hadd]; rfl
    have hret : F₂.code.ret = F.code.ret := by rw [hadd]; rfl
    rw [hret, hscopes] at hyes
    obtain ⟨rfl, rfl, rfl⟩ | ⟨base, no, rfl, rfl, hno⟩ := otherwise_flow other hnext h₆
    · obtain ⟨ho, hF'⟩ := when_end hlt h₇ h₈
      rw [hlen, hF']
      refine ⟨hopen ho, .emits (is ++ is') (.when c yes .fall), ?_, rfl, by simp [Flow.returns], ?_⟩
      · rw [hscopes, hadd, Frame.emit_spread]
      · refine ⟨by simp [Flow.returns], fun _ _ _ _ _ hss => ?_⟩
        rw [Flow.andThen_emits]
        exact .when he hc hyes hss
    · obtain ⟨ho, hF'⟩ := either_end hlt h₇ h₈
      rw [hlen, hF']
      refine ⟨hopen ho, .emits (is ++ is') (.either c yes base no .fall), ?_, rfl,
        by simp [Flow.returns], ?_⟩
      · rw [hscopes, hadd, Frame.emit_spread]
      · have htemps : (F₂.spread (.either c yes base no .fall) F₂.scopes).code.temps =
            ((F₂.addYes yes).addCase base no
              (Flow.nextLabel F₂.code.blocks.length yes)).code.temps := by
          simp [Frame.spread, Frame.addCase, Frame.addYes, Frame.fresh, Flow.defs, Nat.add_assoc]
        change LowersOther F₂.code.ret F₂.scopes _ other base no _ at hno
        rw [hret, hscopes] at hno
        refine ⟨by simp [Flow.returns], fun _ _ _ _ _ hss => ?_⟩
        rw [htemps] at hss
        rw [Flow.andThen_emits]
        cases hno with
        | block hno => exact .either he hc hyes hno hss
        | chain hno => exact .chain he hc hyes hno hss

/-- The alternative of a conditional. -/
theorem otherwise_flow (o : Otherwise) {F F' : Frame} {target no : Nat} {pos : Option Position}
    {next : Block} (hn : F.code.blocks[target]? = some next)
    (h : otherwise target pos o F = .ok no F') :
    o = .nothing ∧ no = target ∧ F' = F ∨
      ∃ base g, no = F.code.blocks.length ∧ F' = F.addCase base g next.label ∧
        LowersOther F.code.ret F.scopes F.code.temps o base g F'.code.temps := by
  have hF : F.code.blocks ≠ [] := by
    rintro hnil
    simp [hnil] at hn
  match o with
  | .nothing =>
    simp only [otherwise, pure_eq_ok] at h
    exact .inl ⟨rfl, h.1.symm, h.2.symm⟩
  | .block body =>
    simp only [otherwise, seq_eq_ok, pure_eq_ok] at h
    obtain ⟨b, F₁, h₁, e, F₂, h₂, _, F₃, h₃, rfl, rfl⟩ := h
    obtain ⟨g, S', hg, rfl, rfl, hF₂⟩ := inScope_flow (stmts_flow body) hF h₁ h₂
    rw [hF₂] at h₃
    obtain rfl := goOn_eq_addCase hn h₃
    rw [hF₂] at hg
    exact .inr ⟨_, g, rfl, rfl, .block hg⟩
  | .chain c =>
    simp only [otherwise, enter, seq_eq_ok, modify_eq_ok, pure_eq_ok] at h
    obtain ⟨b, F₁, h₁, -, -, rfl, e, F₂, h₂, _, F₃, h₃, rfl, rfl⟩ := h
    obtain ⟨rfl, rfl⟩ := addBlock_eq_ok hF h₁
    obtain ⟨-, g, hF₂, rfl, hr, hg⟩ := conditional_flow c (F.open_fresh "if.guard").lt h₂
    rw [hF₂] at h₃
    obtain rfl := goOn_eq_addCase hn h₃
    rw [hF₂] at hg
    have hchain := hg.2 hr (.nil _ _)
    rw [Flow.andThen_fall] at hchain
    exact .inr ⟨_, g, rfl, rfl, .chain hchain⟩

end

end Lower
end ProcLang

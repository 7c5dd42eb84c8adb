import ProcLang.Proofs.Lowering.Progress

/-!
# Lowering succeeds on well-formed bodies

Statements in an open block can be lowered exactly if they are well-formed for what the names in
scope mean. In a block that has ended there is room for literals only, because everything else
needs an instruction.

## Main definitions

* `Frame.Leads` — what one statement does to a frame, as far as the static rules see it.
* `Frame.Grows` — new blocks, with the old ones as they were.
* `Frame.Ready` — frames that statements can be lowered in.

## Main statements

* `Lower.stmts_succeeds_iff` — statements.
* `Lower.body_succeeds_iff` — the body of a function.
-/
namespace ProcLang

open IR (Instr Value Flow Block)

/-! ## One statement -/

theorem LowersOne.single {ret : IR.Ty} {S S' : Scopes Binding} {n n' : Nat} {s : Stmt} {g : Flow}
    (h : LowersOne ret S n s g S' n') : Lowers ret S n [s] g S' n' := by
  cases hr : g.returns with
  | true => exact h.1 hr []
  | false => simpa only [Flow.andThen_fall] using h.2 hr (.nil S' n')

theorem Lowers.behind {ret : IR.Ty} {S S' : Scopes Binding} {n n' : Nat} {s : Stmt} {g : Flow}
    (h : Lowers ret S n [s] g S' n') :
    g.returns = s.isReturn ∧ S'.names = s.behind S.names ∧ (S.Scalar → S'.Scalar) := by
  cases h with
  | value he hss =>
    cases hss
    cases he <;> exact ⟨by simp [Flow.returns, Stmt.isReturn], rfl, id⟩
  | voidCall _ _ _ hss | when _ _ _ hss | either _ _ _ _ hss | chain _ _ _ _ hss =>
    cases hss
    exact ⟨by simp [Flow.returns, Stmt.isReturn], rfl, id⟩
  | assign he hc hss =>
    cases hss
    refine ⟨by simp [Flow.returns, Stmt.isReturn], Scopes.names_insert _ _ _, fun hS => ?_⟩
    refine hS.insert rfl ?_ _
    rw [hc.ty_eq]
    exact isScalar_elim (he.isScalar hS) _
  | returnNothing | returnValue => exact ⟨by simp [Flow.returns, Stmt.isReturn], rfl, id⟩

/-- What a statement does to a frame, as far as the static rules see it. -/
structure Frame.Leads (F : Frame) (s : Stmt) (F' : Frame) : Prop where
  opened : F'.Open ↔ s.isReturn = false
  lt : F'.block < F'.code.blocks.length
  names : F'.scopes.names = s.behind F.scopes.names
  scalar : F.scopes.Scalar → F'.scopes.Scalar
  ret : F'.code.ret = F.code.ret

namespace Lower

theorem stmt_leads {s : Stmt} {F F' : Frame} {u : Unit} (ho : F.Open) (h : stmt s F = .ok u F') :
    F.Leads s F' := by
  obtain ⟨-, g, hF', hg⟩ | ⟨hc, -⟩ := stmt_flow s ho.lt h
  · obtain ⟨hreturns, hnames, hscalar⟩ := hg.single.behind
    refine ⟨?_, ?_, hnames, hscalar, ?_⟩
    · rw [hF', Frame.open_spread ho.lt, hreturns]
    · rw [hF']
      exact Frame.lt_spread ho.lt
    · rw [hF']
      rfl
  · exact absurd ho hc

/-! ## Statements in a block that has ended -/

theorem stmt_succeeds_iff_of_closed {s : Stmt} {F : Frame} (hF : F.block < F.code.blocks.length)
    (hc : ¬ F.Open) : Succeeds (stmt s) F ↔ s.isLiteral = true := by
  constructor
  · rintro ⟨u, F', h⟩
    -- An instruction would need an open block.
    have hnil : ∀ {is : List Instr}, F.Adds is F' → is = [] := fun hadd =>
      Decidable.byContradiction fun hne => hc (hadd.2 hne)
    cases s with
    | branch c =>
      simp only [stmt, seq_eq_ok, pure_eq_ok] at h
      obtain ⟨next, F₁, h, -⟩ := h
      exact absurd (conditional_flow c hF h).1 hc
    | expr e =>
      cases e with
      | assign => exact absurd (assign_flow h).1 hc
      | «return» => exact absurd (return_flow h).1 hc
      | literal => rfl
      | call name args pos =>
        simp only [stmt, exprStmt, seq_eq_ok, pure_eq_ok] at h
        obtain ⟨r, F₂, hcall, -, rfl⟩ := h
        obtain ⟨sig, vs, F₁, -, hcount, hargs, hcall⟩ := call_adds hcall
        obtain ⟨is, -, hadd⟩ := exprs_adds args sig.params hcount hargs
        obtain ⟨-, -, hadd'⟩ | ⟨-, -, hadd'⟩ := hcall <;> simpa using hnil (hadd.trans hadd')
      | var | binary =>
        simp only [stmt, exprStmt, seq_eq_ok, pure_eq_ok] at h
        obtain ⟨v, F₂, he, -, rfl⟩ := h
        obtain ⟨is, he, hadd⟩ := expr_adds _ he
        obtain rfl := hnil hadd
        obtain ⟨c, pos, heq⟩ := he.literal_of_nil
        cases heq
  · intro h
    obtain ⟨c, pos, rfl⟩ := Stmt.isLiteral_iff.mp h
    exact ⟨(), F, rfl⟩

theorem stmts_succeeds_iff_of_closed {ss : List Stmt} {F : Frame}
    (hF : F.block < F.code.blocks.length) (hc : ¬ F.Open) :
    Succeeds (stmts ss) F ↔ ∀ s ∈ ss, s.isLiteral = true := by
  induction ss with
  | nil => simp [Succeeds, stmts]
  | cons s ss ih =>
    rw [List.forall_mem_cons, ← stmt_succeeds_iff_of_closed hF hc, ← ih]
    have hsame : ∀ {u F'}, stmt s F = .ok u F' → F' = F := fun h =>
      (stmt_flow s hF h).elim (fun ho => absurd ho.1 hc) And.right
    constructor
    · rintro ⟨u, F', h⟩
      obtain ⟨u', F₁, h₁, h₂⟩ := seq_eq_ok.mp h
      obtain rfl := hsame h₁
      exact ⟨⟨u', F₁, h₁⟩, u, F', h₂⟩
    · rintro ⟨h₁, h₂⟩
      refine .seq h₁ fun _ F₁ h => ?_
      rw [hsame h]
      exact h₂

end Lower

/-! ## New blocks -/

/-- More blocks, with the old ones as they were. -/
structure Frame.Grows (F F' : Frame) : Prop where
  scopes : F'.scopes = F.scopes
  ret : F'.code.ret = F.code.ret
  le : F.code.blocks.length ≤ F'.code.blocks.length
  kept : ∀ i < F.code.blocks.length, F'.code.blocks[i]? = F.code.blocks[i]?

namespace Frame

variable {F F₁ F₂ : Frame}

theorem Grows.trans (h : F.Grows F₁) (h' : F₁.Grows F₂) : F.Grows F₂ :=
  ⟨h'.scopes.trans h.scopes, h'.ret.trans h.ret, Nat.le_trans h.le h'.le, fun i hi =>
    (h'.kept i (Nat.lt_of_lt_of_le hi h.le)).trans (h.kept i hi)⟩

theorem Grows.opened (h : F.Grows F₁) (ho : F.Open) : F₁.code.Open F.block := by
  obtain ⟨block, hget, ht⟩ := ho
  exact ⟨block, (h.kept _ (List.getElem?_eq_some_iff.mp hget).1).trans hget, ht⟩

/-- A frame at the start of a case of a conditional. -/
def inner (F : Frame) (base : String) : Frame := { F.fresh base with scopes := F.scopes.push }

theorem open_inner (F : Frame) (base : String) : (F.inner base).Open := F.open_fresh base

theorem names_inner (F : Frame) (base : String) : (F.inner base).scopes.names = F.scopes.names :=
  F.scopes.names_push

theorem ret_inner (F : Frame) (base : String) : (F.inner base).code.ret = F.code.ret := rfl

/-- A flow in a new block. -/
theorem grows_of_spread {F' : Frame} (base : String) (g : Flow) (exit : Option IR.Terminator)
    (hscopes : F'.scopes = F.scopes) (hret : F'.code.ret = F.code.ret)
    (hblocks : F'.code.blocks =
      g.spread exit (F.fresh base).code.blocks F.code.blocks.length) : F.Grows F' := by
  refine ⟨hscopes, hret, ?_, fun i hi => ?_⟩
  · rw [hblocks, Flow.length_spread]
    simp only [fresh, List.length_append]
    omega
  · rw [hblocks, Flow.getElem?_spread _ (by simp [fresh]; omega) (by omega), fresh,
      List.getElem?_append_left hi]

end Frame

namespace Lower

variable {F F' : Frame}

theorem addBlock_grows {label : String} {i : Nat} (hF : F.code.blocks ≠ [])
    (h : addBlock label F = .ok i F') :
    F.Grows F' ∧ i = F.code.blocks.length ∧ i < F'.code.blocks.length := by
  obtain ⟨rfl, rfl⟩ := addBlock_eq_ok hF h
  exact ⟨⟨rfl, rfl, by simp, fun i hi => List.getElem?_append_left hi⟩, rfl, by simp⟩

theorem inScope_eq_ok {b e : Nat} {body : Lower Unit} :
    inScope b body F = .ok e F' ↔
      ∃ u G, body ⟨F.code, F.scopes.push, b⟩ = .ok u G ∧ e = G.block ∧
        F' = { G with scopes := G.scopes.pop } := by
  simp only [inScope, enter, seq_eq_ok, modify_eq_ok, get_eq_ok, pure_eq_ok]
  constructor
  · rintro ⟨-, -, rfl, -, -, rfl, u, G, hG, -, -, rfl, _, _, ⟨rfl, rfl⟩, rfl, rfl⟩
    exact ⟨u, G, hG, rfl, rfl⟩
  · rintro ⟨u, G, hG, rfl, rfl⟩
    exact ⟨(), _, rfl, (), _, rfl, u, G, hG, (), _, rfl, _, _, ⟨rfl, rfl⟩, rfl, rfl⟩

/-- A case of a conditional starts in a new block. -/
theorem case_start {base : String} {b : Nat} {G : Frame} (hF : F.code.blocks ≠ [])
    (ha : addBlock base F = .ok b G) : (⟨G.code, G.scopes.push, b⟩ : Frame) = F.inner base := by
  obtain ⟨rfl, rfl⟩ := addBlock_eq_ok hF ha
  rfl

theorem case_grows {base : String} {b e : Nat} {body : List Stmt} {G : Frame}
    (hF : F.code.blocks ≠ []) (ha : addBlock base F = .ok b G)
    (h : inScope b (stmts body) G = .ok e F') :
    F.Grows F' ∧ b < F'.code.blocks.length ∧ e < F'.code.blocks.length := by
  obtain ⟨g, S', -, rfl, rfl, rfl⟩ := inScope_flow (stmts_flow body) hF ha h
  refine ⟨Frame.grows_of_spread base g none rfl rfl rfl, ?_, Frame.lt_spread (F.open_fresh base).lt⟩
  simp only [Frame.spread, Frame.fresh, Flow.length_spread, List.length_append]
  exact Nat.lt_add_right _ (Nat.lt_succ_self _)

theorem chain_grows {base : String} {c : Conditional} {e : Nat}
    (h : conditional c (F.fresh base) = .ok e F') :
    F.Grows F' ∧ e < F'.code.blocks.length := by
  have hlt := (F.open_fresh base).lt
  obtain ⟨-, g, rfl, rfl, -⟩ := conditional_flow c hlt h
  exact ⟨Frame.grows_of_spread base g none rfl rfl rfl, Frame.lt_spread hlt⟩

theorem otherwise_grows {o : Otherwise} {target no : Nat} {pos : Option Position}
    (ht : target < F.code.blocks.length) (h : otherwise target pos o F = .ok no F') :
    F.Grows F' ∧ no < F'.code.blocks.length := by
  obtain ⟨-, rfl, rfl⟩ | ⟨base, g, rfl, rfl, -⟩ :=
    otherwise_flow o (List.getElem?_eq_getElem ht) h
  · exact ⟨⟨rfl, rfl, Nat.le_refl _, fun _ _ => rfl⟩, ht⟩
  · refine ⟨Frame.grows_of_spread base g _ rfl rfl rfl, ?_⟩
    simp only [Frame.addCase, Frame.fresh, Flow.length_spread, List.length_append]
    exact Nat.lt_add_right _ (Nat.lt_succ_self _)

/-! ## What can be lowered is well-formed -/

theorem exprStmt_wellFormed {e : Expr} {u : Unit} (h : exprStmt e F = .ok u F') :
    Stmt.WellFormed F.code.ret.isVoid F.scopes.names (.expr e) := by
  cases e with
  | assign name ty value pos =>
    obtain ⟨v, F₁, h₁, -⟩ := seq_eq_ok.mp h
    obtain ⟨_, he, -⟩ := expr_adds value h₁
    exact he.wellFormed
  | «return» values pos =>
    obtain ⟨-, g, -, hg⟩ := return_flow h
    have hlowers := hg.single
    generalize F'.scopes = S', F'.code.temps = n' at hlowers
    cases hlowers with
    | value he => cases he
    | returnNothing hret => exact hret
    | returnValue hret he => exact ⟨hret, he.wellFormed⟩
  | call name args pos =>
    simp only [exprStmt, seq_eq_ok, pure_eq_ok] at h
    obtain ⟨r, F₂, hcall, -⟩ := h
    obtain ⟨sig, vs, F₁, hs, hcount, hargs, -⟩ := call_adds hcall
    obtain ⟨_, ha, -⟩ := exprs_adds args sig.params hcount hargs
    exact ⟨⟨_, Scopes.names_eq_function.mpr ⟨sig, hs, hcount, rfl⟩⟩, ha.wellFormed.2⟩
  | literal | var | binary =>
    simp only [exprStmt, seq_eq_ok, pure_eq_ok] at h
    obtain ⟨v, F₁, h₁, -⟩ := h
    obtain ⟨_, he, -⟩ := expr_adds _ h₁
    exact he.wellFormed

mutual

theorem stmt_wellFormed (s : Stmt) {F F' : Frame} {u : Unit} (hF : F.block < F.code.blocks.length)
    (h : stmt s F = .ok u F') : s.WellFormed F.code.ret.isVoid F.scopes.names := by
  match s with
  | .expr e => exact exprStmt_wellFormed h
  | .branch c =>
    simp only [stmt, seq_eq_ok] at h
    obtain ⟨next, F₁, h₁, -⟩ := h
    exact conditional_wellFormed c hF h₁

theorem stmts_wellFormed (ss : List Stmt) {F F' : Frame} {u : Unit} (ho : F.Open)
    (h : stmts ss F = .ok u F') : Stmt.AllWellFormed F.code.ret.isVoid F.scopes.names ss := by
  match ss with
  | [] => trivial
  | s :: ss =>
    simp only [stmts, seq_eq_ok] at h
    obtain ⟨_, F₁, h₁, h₂⟩ := h
    have hlead := stmt_leads ho h₁
    refine ⟨stmt_wellFormed s ho.lt h₁, ?_⟩
    split
    next hr =>
      have hc : ¬ F₁.Open := by simp [hlead.opened, hr]
      exact (stmts_succeeds_iff_of_closed hlead.lt hc).mp ⟨_, _, h₂⟩
    next hr =>
      rw [← hlead.names, ← hlead.ret]
      exact stmts_wellFormed ss (hlead.opened.mpr (by simpa using hr)) h₂

theorem conditional_wellFormed (c : Conditional) {F F' : Frame} {next : Nat}
    (hF : F.block < F.code.blocks.length) (h : conditional c F = .ok next F') :
    c.WellFormed F.code.ret.isVoid F.scopes.names := by
  match c with
  | ⟨guard, body, other, pos⟩ =>
    simp only [conditional, seq_eq_ok, get_eq_ok] at h
    obtain ⟨v, F₁, h₁, c, F₂, h₂, _, _, ⟨rfl, rfl⟩, yes, F₃, h₃, yesEnd, F₄, h₄, next, F₅, h₅,
      no, F₆, h₆, -⟩ := h
    obtain ⟨is, he, ha⟩ := expr_adds guard h₁
    obtain ⟨is', -, ha'⟩ := cast_adds h₂
    have hadd := ha.trans ha'
    have hlen : F₂.code.blocks.length = F.code.blocks.length := by simp [hadd.1, Frame.emit]
    have hne : F₂.code.blocks ≠ [] := List.ne_nil_of_length_pos (by omega)
    obtain ⟨_, G, hbody, -⟩ := inScope_eq_ok.mp h₄
    rw [case_start hne h₃] at hbody
    have hyes := stmts_wellFormed body (F₂.open_inner _) hbody
    rw [Frame.names_inner, Frame.ret_inner, hadd.ret, hadd.scopes] at hyes
    obtain ⟨hg₄, hlt, -⟩ := case_grows hne h₃ h₄
    obtain ⟨hg₅, -, hnext⟩ := addBlock_grows (List.ne_nil_of_length_pos (by omega)) h₅
    have hother := otherwise_wellFormed other hnext h₆
    have hg := hg₄.trans hg₅
    rw [hg.ret, hg.scopes, hadd.ret, hadd.scopes] at hother
    exact ⟨he.wellFormed, hyes, hother⟩

theorem otherwise_wellFormed (o : Otherwise) {F F' : Frame} {target no : Nat}
    {pos : Option Position} (ht : target < F.code.blocks.length)
    (h : otherwise target pos o F = .ok no F') : o.WellFormed F.code.ret.isVoid F.scopes.names := by
  have hF : F.code.blocks ≠ [] := List.ne_nil_of_length_pos (by omega)
  match o with
  | .nothing => trivial
  | .block body =>
    simp only [otherwise, seq_eq_ok] at h
    obtain ⟨b, F₁, h₁, e, F₂, h₂, -⟩ := h
    obtain ⟨_, G, hbody, -⟩ := inScope_eq_ok.mp h₂
    rw [case_start hF h₁] at hbody
    have hwf := stmts_wellFormed body (F.open_inner _) hbody
    rw [Frame.names_inner, Frame.ret_inner] at hwf
    exact hwf
  | .chain c =>
    simp only [otherwise, enter, seq_eq_ok, modify_eq_ok] at h
    obtain ⟨b, F₁, h₁, -, -, rfl, e, F₂, h₂, -⟩ := h
    obtain ⟨rfl, rfl⟩ := addBlock_eq_ok hF h₁
    have hwf := conditional_wellFormed c (F.open_fresh "if.guard").lt h₂
    exact hwf

end

end Lower

/-! ## What is well-formed can be lowered -/

/-- A frame that statements can be lowered in: the current block is open and all types belong to
values. -/
structure Frame.Ready (F : Frame) : Prop where
  opened : F.Open
  scalar : F.scopes.Scalar
  ret : F.code.ret.isVoid = true ∨ F.code.ret.isScalar = true

namespace Frame.Ready

variable {F F' : Frame}

theorem adds (h : F.Ready) {is : List Instr} (hadd : F.Adds is F') : F'.Ready := by
  exact ⟨hadd.opened h.opened, hadd.scopes ▸ h.scalar, hadd.ret ▸ h.ret⟩

theorem leads (h : F.Ready) {s : Stmt} (hl : F.Leads s F') (hs : s.isReturn = false) : F'.Ready :=
  ⟨hl.opened.mpr hs, hl.scalar h.scalar, hl.ret ▸ h.ret⟩

theorem fresh (hS : F.scopes.Scalar) (hret : F.code.ret.isVoid = true ∨ F.code.ret.isScalar = true)
    (base : String) : (F.fresh base).Ready :=
  ⟨F.open_fresh base, hS, hret⟩

theorem inner (hS : F.scopes.Scalar) (hret : F.code.ret.isVoid = true ∨ F.code.ret.isScalar = true)
    (base : String) : (F.inner base).Ready :=
  ⟨F.open_inner base, hS.push, hret⟩

end Frame.Ready

namespace Lower

variable {F : Frame}

namespace Succeeds

theorem bind {pos : Option Position} {name : String} {v : Value} (ho : F.Open) :
    Succeeds (Lower.bind pos name v) F := by
  refine seq (build (IR.Function.exists_define ho _ _)) fun storage F₁ h₁ => ?_
  obtain ⟨code, hdef, rfl⟩ := build_eq_ok.mp h₁
  obtain ⟨rfl, hadd⟩ := define_adds hdef
  refine seq (perform ?_) fun _ _ _ => ⟨(), _, modify_eq_ok.mpr rfl⟩
  simp only [IR.Function.store, IR.Ty.target?, if_true]
  exact IR.Function.exists_perform (hadd.opened ho) _

/-- Code that depends on whether a block has ended. -/
theorem isClosed {α : Type} {pos : Option Position} {b : Nat}
    {op : IR.Function → Nat → Except IR.Error (Bool × IR.Function)} {k : Bool → Lower α}
    (hop : op F.code F.block = (F.code.isClosed b).map (·, F.code))
    (hb : b < F.code.blocks.length) (hclosed : Succeeds (k true) F)
    (hopen : F.code.Open b → Succeeds (k false) F) : Succeeds (Lower.build pos op >>= k) F := by
  obtain ⟨block, hblock⟩ := IR.Function.exists_block hb
  have hok : op F.code F.block = .ok (block.isClosed, F.code) := by
    rw [hop, IR.Function.isClosed, hblock]
    rfl
  refine seq (build ⟨_, hok⟩) fun closed F₁ h₁ => ?_
  obtain ⟨code, hc, rfl⟩ := build_eq_ok.mp h₁
  cases hok.symm.trans hc
  cases hb : block.isClosed with
  | true => exact hclosed
  | false =>
    refine hopen ⟨block, IR.Function.block_eq_ok.mp hblock, ?_⟩
    simpa [Block.isClosed] using hb

theorem branchIfOpen {pos : Option Position} {b target : Nat} (hb : b < F.code.blocks.length)
    (ht : target < F.code.blocks.length) : Succeeds (branchIfOpen pos b target) F := by
  refine isClosed rfl hb (pure ()) fun hopen => ?_
  have hbr : Succeeds (Lower.performAt pos b fun code block => code.br block target) F :=
    performAt (IR.Function.exists_br hopen ht)
  exact hbr

theorem inScope {b : Nat} {body : Lower Unit} (h : Succeeds body ⟨F.code, F.scopes.push, b⟩) :
    Succeeds (inScope b body) F := by
  obtain ⟨u, G, hG⟩ := h
  exact ⟨_, _, inScope_eq_ok.mpr ⟨u, G, hG, rfl, rfl⟩⟩

end Succeeds

theorem assign_succeeds {name : String} {ty : Option Ty} {value : Expr} {pos : Option Position}
    (hF : F.Ready) (h : value.WellFormed F.scopes.names) :
    Succeeds (assign name ty value pos) F := by
  refine .seq (expr_succeeds value hF.opened hF.scalar h) fun v F₁ h₁ => ?_
  obtain ⟨_, he, ha⟩ := expr_adds value h₁
  have ho₁ := ha.opened hF.opened
  cases ty with
  | none => exact .seq (.pure v) fun w F₂ h₂ => (pure_eq_ok.mp h₂).2 ▸ .bind ho₁
  | some ty =>
    refine .seq (.cast ho₁ (he.isScalar hF.scalar) ty.isScalar_lower) fun w F₂ h₂ => ?_
    obtain ⟨_, -, ha₂⟩ := cast_adds h₂
    exact .bind (ha₂.opened ho₁)

theorem return_succeeds {values : List Expr} {pos : Option Position} (hF : F.Ready)
    (h : Stmt.WellFormed F.code.ret.isVoid F.scopes.names (.expr (.return values pos))) :
    Succeeds («return» values pos) F := by
  refine .seq ⟨F, F, rfl⟩ fun G F' hG => ?_
  obtain ⟨rfl, rfl⟩ := get_eq_ok.mp hG
  cases values with
  | nil =>
    refine .perform ?_
    rw [Stmt.WellFormed] at h
    rw [IR.Function.retVoid, if_pos h]
    exact IR.Function.exists_terminate hF.opened _
  | cons first rest =>
    obtain ⟨hret, hfirst⟩ := h
    simp only [hret, Bool.false_eq_true, if_false]
    refine .seq (expr_succeeds first hF.opened hF.scalar hfirst) fun v F₁ h₁ => ?_
    obtain ⟨_, he, ha₁⟩ := expr_adds first h₁
    have hF₁ := hF.adds ha₁
    refine .seq (.cast hF₁.opened (he.isScalar hF.scalar) (hF.ret.resolve_left (by simp [hret])))
      fun w F₂ h₂ => .perform ?_
    obtain ⟨_, hc, ha₂⟩ := cast_adds h₂
    rw [IR.Function.retValue, if_pos (hc.ty_eq.trans (ha₁.trans ha₂).ret.symm)]
    exact IR.Function.exists_terminate (hF₁.adds ha₂).opened _

theorem exprStmt_succeeds {e : Expr} (hF : F.Ready)
    (h : Stmt.WellFormed F.code.ret.isVoid F.scopes.names (.expr e)) : Succeeds (exprStmt e) F := by
  cases e with
  | assign => exact assign_succeeds hF h
  | «return» => exact return_succeeds hF h
  | call name args pos =>
    obtain ⟨⟨void, hname⟩, hargs⟩ := h
    obtain ⟨v, F', hcall, -⟩ := exists_call pos hname fun sig hsig hlen =>
      exprs_succeeds args hF.opened hF.scalar hargs hlen (hF.scalar name _ hsig).1
    exact .seq ⟨v, F', hcall⟩ fun _ _ _ => .pure ()
  | literal | var | binary =>
    exact .seq (expr_succeeds _ hF.opened hF.scalar h) fun _ _ _ => .pure ()

mutual

theorem stmt_succeeds (s : Stmt) {F : Frame} (hF : F.Ready)
    (h : s.WellFormed F.code.ret.isVoid F.scopes.names) : Succeeds (stmt s) F := by
  match s with
  | .expr e => exact exprStmt_succeeds hF h
  | .branch c =>
    rw [stmt]
    exact .seq (conditional_succeeds c hF h) fun _ _ _ => .pure ()

theorem stmts_succeeds (ss : List Stmt) {F : Frame} (hF : F.Ready)
    (h : Stmt.AllWellFormed F.code.ret.isVoid F.scopes.names ss) : Succeeds (stmts ss) F := by
  match ss with
  | [] => exact .pure ()
  | s :: ss =>
    obtain ⟨hs, hss⟩ := h
    rw [stmts]
    refine .seq (stmt_succeeds s hF hs) fun _ F₁ h₁ => ?_
    have hlead := stmt_leads hF.opened h₁
    split at hss
    next hr =>
      have hc : ¬ F₁.Open := by simp [hlead.opened, hr]
      exact (stmts_succeeds_iff_of_closed hlead.lt hc).mpr hss
    next hr =>
      rw [← hlead.names, ← hlead.ret] at hss
      exact stmts_succeeds ss (hF.leads hlead (by simpa using hr)) hss

theorem conditional_succeeds (c : Conditional) {F : Frame} (hF : F.Ready)
    (h : c.WellFormed F.code.ret.isVoid F.scopes.names) : Succeeds (conditional c) F := by
  match c with
  | ⟨guard, body, other, pos⟩ =>
    obtain ⟨hguard, hbody, hother⟩ := h
    rw [conditional]
    refine .seq (expr_succeeds guard hF.opened hF.scalar hguard) fun v F₁ h₁ => ?_
    obtain ⟨is, he, ha⟩ := expr_adds guard h₁
    have hF₁ := hF.adds ha
    refine .seq (.cast hF₁.opened (he.isScalar hF.scalar) rfl) fun c F₂ h₂ => ?_
    obtain ⟨is', hc, ha'⟩ := cast_adds h₂
    have hF₂ := hF₁.adds ha'
    have hadd := ha.trans ha'
    rw [← hadd.ret, ← hadd.scopes] at hbody hother
    have hne : F₂.code.blocks ≠ [] := List.ne_nil_of_length_pos (Nat.zero_lt_of_lt hF₂.opened.lt)
    refine .seq ⟨F₂, F₂, rfl⟩ fun _ _ h => ?_
    obtain ⟨rfl, rfl⟩ := get_eq_ok.mp h
    refine .seq ⟨_, _, rfl⟩ fun yes F₃ h₃ => ?_
    refine .seq (.inScope ?_) fun yesEnd F₄ h₄ => ?_
    · rw [case_start hne h₃]
      refine stmts_succeeds body (.inner hF₂.scalar hF₂.ret _) ?_
      rw [Frame.names_inner, Frame.ret_inner]
      exact hbody
    obtain ⟨hg₄, hyes, hyesEnd⟩ := case_grows hne h₃ h₄
    refine .seq ⟨_, _, rfl⟩ fun next F₅ h₅ => ?_
    obtain ⟨hg₅, -, hnext⟩ := addBlock_grows (List.ne_nil_of_length_pos (by omega)) h₅
    have hg := hg₄.trans hg₅
    rw [← hg.ret, ← hg.scopes] at hother
    refine .seq (otherwise_succeeds other hnext (hg.scopes ▸ hF₂.scalar) (hg.ret ▸ hF₂.ret) hother)
      fun no F₆ h₆ => ?_
    obtain ⟨hg₆, hno⟩ := otherwise_grows hnext h₆
    have hyes₆ := Nat.lt_of_lt_of_le hyes (Nat.le_trans hg₅.le hg₆.le)
    have hyesEnd₆ := Nat.lt_of_lt_of_le hyesEnd (Nat.le_trans hg₅.le hg₆.le)
    have hnext₆ := Nat.lt_of_lt_of_le hnext hg₆.le
    refine .seq (.performAt (IR.Function.exists_condBr ((hg.trans hg₆).opened hF₂.opened) hc.ty_eq
      hyes₆ hno)) fun _ F₇ h₇ => ?_
    obtain ⟨code, hcond, rfl⟩ := performAt_eq_ok.mp h₇
    obtain ⟨_, _, -, -, -, rfl⟩ := condBr_eq_ok hcond
    refine .seq (.branchIfOpen ?_ ?_) fun _ _ _ => .seq ⟨(), _, modify_eq_ok.mpr rfl⟩
      fun _ _ _ => .pure next
    · simpa [IR.Function.finish] using hyesEnd₆
    · simpa [IR.Function.finish] using hnext₆

theorem otherwise_succeeds (o : Otherwise) {F : Frame} {target : Nat} {pos : Option Position}
    (ht : target < F.code.blocks.length) (hS : F.scopes.Scalar)
    (hret : F.code.ret.isVoid = true ∨ F.code.ret.isScalar = true)
    (h : o.WellFormed F.code.ret.isVoid F.scopes.names) : Succeeds (otherwise target pos o) F := by
  have hne : F.code.blocks ≠ [] := List.ne_nil_of_length_pos (Nat.zero_lt_of_lt ht)
  match o with
  | .nothing => exact .pure target
  | .block body =>
    rw [otherwise]
    refine .seq ⟨_, _, rfl⟩ fun b F₁ h₁ => ?_
    refine .seq (.inScope ?_) fun e F₂ h₂ => ?_
    · rw [case_start hne h₁]
      refine stmts_succeeds body (.inner hS hret _) ?_
      rw [Frame.names_inner, Frame.ret_inner]
      exact h
    obtain ⟨hg, -, he⟩ := case_grows hne h₁ h₂
    exact .seq (.branchIfOpen he (Nat.lt_of_lt_of_le ht hg.le)) fun _ _ _ => .pure b
  | .chain c =>
    rw [otherwise]
    refine .seq ⟨_, _, rfl⟩ fun b F₁ h₁ => ?_
    obtain ⟨rfl, rfl⟩ := addBlock_eq_ok hne h₁
    refine .seq ⟨(), _, modify_eq_ok.mpr rfl⟩ fun _ F₂ h₂ => ?_
    obtain rfl := modify_eq_ok.mp h₂
    refine .seq (conditional_succeeds c (.fresh hS hret "if.guard") h) fun e F₃ h₃ => ?_
    obtain ⟨hg, he⟩ := chain_grows h₃
    exact .seq (.branchIfOpen he (Nat.lt_of_lt_of_le ht hg.le)) fun _ _ _ => .pure _

end

theorem stmts_succeeds_iff {ss : List Stmt} (hF : F.Ready) :
    Succeeds (stmts ss) F ↔ Stmt.AllWellFormed F.code.ret.isVoid F.scopes.names ss :=
  ⟨fun ⟨_, _, h⟩ => stmts_wellFormed ss hF.opened h, stmts_succeeds ss hF⟩

end Lower

/-! ## Bodies -/

theorem Scopes.names_bindParams (ps : List Param) (n : Nat) (S : Scopes Binding) :
    (S.bindParams n (ps.map fun q => (q.name, q.ty.lower))).names =
      ps.foldl (fun Γ q => Γ.bind q.name) S.names := by
  induction ps generalizing n S with
  | nil => rfl
  | cons q ps ih =>
    rw [List.map_cons, bindParams, ih, names_insert, List.foldl_cons]

theorem Scopes.Scalar.bindParams {S : Scopes Binding} (h : S.Scalar) (ps : List Param) (n : Nat) :
    (S.bindParams n (ps.map fun q => (q.name, q.ty.lower))).Scalar := by
  induction ps generalizing n S with
  | nil => exact h
  | cons q ps ih => exact ih (h.insert rfl q.ty.isScalar_lower _) (n + 1)

theorem Declaration.isVoid_ret (d : Declaration) : d.ret.isVoid = d.returns.isEmpty := by
  unfold ret
  cases d.returns with
  | nil => rfl
  | cons ty tys => cases ty <;> rfl

namespace Lower

variable {F : Frame} {pos : Option Position}

theorem params_succeeds (ps : List (String × IR.Ty)) (ho : F.Open) :
    Succeeds (params pos ps) F := by
  induction ps generalizing F with
  | nil => exact .pure ()
  | cons p ps ih =>
    refine .seq (.bind ho) fun _ F₁ h₁ => ih ?_
    obtain ⟨-, rfl⟩ := bind_eq_ok h₁
    exact (Frame.open_spread ho.lt).mpr rfl

theorem finish_succeeds (hF : F.block < F.code.blocks.length) : Succeeds (finish pos) F := by
  refine .seq ⟨F, F, rfl⟩ fun G F' hG => ?_
  obtain ⟨rfl, rfl⟩ := get_eq_ok.mp hG
  refine .isClosed rfl hF (.pure ()) fun hopen => ?_
  cases hret : F.code.ret.isVoid with
  | true =>
    refine .perform ?_
    rw [IR.Function.retVoid, if_pos hret]
    exact IR.Function.exists_terminate hopen _
  | false => exact .perform (IR.Function.exists_terminate hopen _)

/-- The body of a function can be lowered exactly if its statements are well-formed. -/
theorem body_succeeds_iff {d : Declaration} {S : Scopes Binding} (hS : S.Scalar) :
    Succeeds (body d) ⟨d.header.entry, S.push, 0⟩ ↔
      Stmt.AllWellFormed d.returns.isEmpty (d.names S.names) d.body := by
  have ho : (⟨d.header.entry, S.push, 0⟩ : Frame).Open :=
    ⟨.empty IR.Function.entryLabel, rfl, rfl⟩
  obtain ⟨u, F₁, h₁⟩ := @params_succeeds _ d.pos d.irParams ho
  have hF₁ := params_flow ho h₁
  have hscopes : F₁.scopes = S.push.bindParams 0 d.irParams := by rw [hF₁]; rfl
  have hret : F₁.code.ret = d.ret := by rw [hF₁]; rfl
  have hready : F₁.Ready := by
    refine ⟨?_, hscopes ▸ hS.push.bindParams d.params 0, hret ▸ d.scalar_ret⟩
    rw [hF₁]
    exact (Frame.open_spread ho.lt).mpr (Flow.returns_bindParams _ _)
  have hnames : F₁.scopes.names = d.names S.names := by
    rw [hscopes, Declaration.irParams, Scopes.names_bindParams, Scopes.names_push,
      Declaration.names]
  rw [← hnames, ← d.isVoid_ret, ← hret, ← stmts_succeeds_iff hready]
  constructor
  · rintro ⟨u', F', h⟩
    simp only [body, seq_eq_ok, get_eq_ok] at h
    obtain ⟨_, _, ⟨rfl, rfl⟩, _, F₂, h₂, u₃, F₃, h₃, -⟩ := h
    cases h₁.symm.trans h₂
    exact ⟨u₃, F₃, h₃⟩
  · rintro ⟨u₂, F₂, h₂⟩
    obtain ⟨g, hF₂, -⟩ := stmts_flow d.body hready.opened h₂
    have hlt : F₂.block < F₂.code.blocks.length := by
      rw [hF₂]
      exact Frame.lt_spread hready.opened.lt
    obtain ⟨u₃, F₃, h₃⟩ := @finish_succeeds _ d.pos hlt
    refine ⟨u₃, F₃, ?_⟩
    simp only [body, seq_eq_ok, get_eq_ok]
    exact ⟨_, _, ⟨rfl, rfl⟩, u, F₁, h₁, u₂, F₂, h₂, h₃⟩

end Lower
end ProcLang

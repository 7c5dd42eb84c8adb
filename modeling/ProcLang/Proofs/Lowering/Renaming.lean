import ProcLang.Proofs.IR.Renaming
import ProcLang.Proofs.Lowering.Functions

/-!
# Renaming variables

Lowering meets the name of a variable in two ways: it looks up what the name means, and it puts the
names of parameters into the code. If different names stay different and functions keep their names,
then a body with other names for its variables finds what the original finds, and its code is the
same up to the names of parameters.

Names in the source and names in the code are renamed apart, by `σ` and by `τ`. The two have to
agree on parameters only, and this is what sets all other variables free.

## Main definitions

* `Stmt.rename`, `Declaration.rename`, `Program.rename` — the same with variables renamed.
* `Frame.Renamed` — a frame in which names in scope and in the code are renamed.
* `Lower.Follows` — an action that does in renamed frames what another one does.

## Main statements

* `Lower.body_follows`.
-/
namespace ProcLang

open IR (Value)

/-! ## Renaming in the source -/

section Definitions

variable (ρ : String → String)

mutual

/-- An expression with variables renamed. The functions that it calls keep their names. -/
def Expr.rename : Expr → Expr
  | .literal value pos => .literal value pos
  | .var name pos => .var (ρ name) pos
  | .binary op lhs rhs pos => .binary op (Expr.rename lhs) (Expr.rename rhs) pos
  | .call name args pos => .call name (Expr.renameAll args) pos
  | .return values pos => .return (Expr.renameAll values) pos
  | .assign name ty value pos => .assign (ρ name) ty (Expr.rename value) pos

def Expr.renameAll : List Expr → List Expr
  | [] => []
  | e :: es => Expr.rename e :: Expr.renameAll es

end

mutual

/-- A statement with variables renamed. -/
def Stmt.rename : Stmt → Stmt
  | .expr e => .expr (e.rename ρ)
  | .branch c => .branch (Conditional.rename c)

def Stmt.renameAll : List Stmt → List Stmt
  | [] => []
  | s :: ss => Stmt.rename s :: Stmt.renameAll ss

/-- A conditional with variables renamed. -/
def Conditional.rename : Conditional → Conditional
  | ⟨guard, body, other, pos⟩ =>
    ⟨guard.rename ρ, Stmt.renameAll body, Otherwise.rename other, pos⟩

/-- An alternative with variables renamed. -/
def Otherwise.rename : Otherwise → Otherwise
  | .nothing => .nothing
  | .block body => .block (Stmt.renameAll body)
  | .chain c => .chain (Conditional.rename c)

end

/-- A declaration with parameters and variables renamed. -/
def Declaration.rename (d : Declaration) : Declaration :=
  { d with params := d.params.map fun q => { q with name := ρ q.name }
           body := Stmt.renameAll ρ d.body }

/-- A program with parameters and variables renamed. -/
def Program.rename (p : Program) : Program := p.map (·.rename ρ)

end Definitions

theorem Expr.length_renameAll (ρ : String → String) (es : List Expr) :
    (Expr.renameAll ρ es).length = es.length := by
  induction es with
  | nil => rfl
  | cons e es ih => simp [Expr.renameAll, ih]

theorem Expr.pos_rename (ρ : String → String) (e : Expr) : (e.rename ρ).pos = e.pos := by
  cases e <;> simp [Expr.rename, Expr.pos]

/-! ## Scopes -/

/-- What a name means, with parameters renamed in the code. -/
def Binding.rename (τ : String → String) : Binding → Binding
  | .function signature => .function signature
  | .slot storage => .slot (storage.rename τ)

/-- A scope with its names renamed by `σ`, and by `τ` in the code. -/
def Scope.rename (σ τ : String → String) (s : Scope Binding) : Scope Binding :=
  s.map fun x => (σ x.1, x.2.rename τ)

/-- The scopes `S'` are `S` with names renamed by `σ`, and by `τ` in the code; functions keep their
names. -/
structure Scopes.Renamed (σ τ : String → String) (S S' : Scopes Binding) : Prop where
  inner : S'.inner = S.inner.map (Scope.rename σ τ)
  global : S'.global = S.global.rename σ τ
  functions : ∀ scope ∈ S.all, ∀ x ∈ scope, ∀ signature, x.2 = .function signature → σ x.1 = x.1

theorem Scope.lookup_rename {σ : String → String} (hσ : Function.Injective σ) (τ : String → String)
    (s : Scope Binding) (name : String) :
    (s.rename σ τ).lookup (σ name) = (s.lookup name).map (·.rename τ) := by
  induction s with
  | nil => rfl
  | cons x s ih =>
    obtain ⟨key, b⟩ := x
    simp only [Scope.rename, List.map_cons, List.lookup_cons] at ih ⊢
    rw [hσ.beq_eq, ih]
    cases name == key <;> rfl

/-- The name of a function that is in scope is kept. -/
theorem Scopes.exists_mem_of_lookup? {S : Scopes Binding} {name : String} {b : Binding}
    (h : S.lookup? name = some b) : ∃ scope ∈ S.all, (name, b) ∈ scope := by
  obtain ⟨scope, hmem, hlookup⟩ := List.exists_of_findSome?_eq_some h
  obtain ⟨l, l', rfl, -⟩ := List.lookup_eq_some_iff.mp hlookup
  exact ⟨_, hmem, by simp⟩

namespace Scopes.Renamed

variable {σ τ : String → String} {S S' : Scopes Binding}

theorem lookup? (hσ : Function.Injective σ) (h : S.Renamed σ τ S') (name : String) :
    S'.lookup? (σ name) = (S.lookup? name).map (·.rename τ) := by
  have hall : S'.all = S.all.map (Scope.rename σ τ) := by simp [Scopes.all, h.inner, h.global]
  rw [Scopes.lookup?, Scopes.lookup?, hall, List.findSome?_map, List.map_findSome?]
  congr 1
  funext scope
  exact scope.lookup_rename hσ τ name

/-- The name of a function that is in scope means the same. -/
theorem lookup?_function (hσ : Function.Injective σ) (h : S.Renamed σ τ S') {name : String}
    {signature : IR.Signature} (hf : S.lookup? name = some (.function signature)) :
    S'.lookup? name = some (.function signature) := by
  obtain ⟨scope, hscope, hmem⟩ := exists_mem_of_lookup? hf
  have hname : σ name = name := h.functions scope hscope _ hmem signature rfl
  have hlookup := h.lookup? hσ name
  rwa [hname, hf] at hlookup

theorem push (h : S.Renamed σ τ S') : S.push.Renamed σ τ S'.push := by
  refine ⟨congrArg ([] :: ·) h.inner, h.global, fun scope hmem => ?_⟩
  rcases List.mem_cons.mp hmem with rfl | hmem
  · simp
  · exact h.functions scope hmem

theorem pop (h : S.Renamed σ τ S') : S.pop.Renamed σ τ S'.pop := by
  refine ⟨?_, h.global, fun scope hmem => h.functions scope ?_⟩
  · simp [Scopes.pop, h.inner]
  · simp only [Scopes.all, Scopes.pop, List.mem_append] at hmem ⊢
    exact hmem.imp_left List.mem_of_mem_tail

/-- A new variable is found by its new name. -/
theorem insert (h : S.Renamed σ τ S') (name : String) (storage : Value) :
    (S.insert name (.slot storage)).Renamed σ τ
      (S'.insert (σ name) (.slot (storage.rename τ))) := by
  obtain ⟨inner, global⟩ := S
  obtain ⟨inner', global'⟩ := S'
  obtain ⟨hinner, hglobal, hfunctions⟩ := h
  dsimp only at hinner hglobal
  subst hinner
  subst hglobal
  have hslot : ∀ {s : Scope Binding},
      (∀ x ∈ s, ∀ signature, x.2 = .function signature → σ x.1 = x.1) →
      ∀ x ∈ (name, Binding.slot storage) :: s, ∀ signature, x.2 = .function signature →
        σ x.1 = x.1 := fun hs => List.forall_mem_cons.mpr ⟨fun _ hf => (nomatch hf), hs⟩
  cases inner with
  | nil =>
    refine ⟨rfl, rfl, List.forall_mem_singleton.mpr ?_⟩
    refine hslot ?_
    exact hfunctions global (by simp [Scopes.all])
  | cons scope inner =>
    obtain ⟨hs, hrest⟩ := List.forall_mem_cons.mp hfunctions
    refine ⟨rfl, rfl, ?_⟩
    exact List.forall_mem_cons.mpr ⟨hslot hs, hrest⟩

end Scopes.Renamed

/-- The frame `G` is `F` with names in scope renamed by `σ`, and by `τ` in the code. -/
structure Frame.Renamed (σ τ : String → String) (F G : Frame) : Prop where
  code : G.code = F.code.rename τ
  block : G.block = F.block
  scopes : F.scopes.Renamed σ τ G.scopes

/-! ## Actions -/

namespace Lower

variable {α β : Type} {σ τ : String → String}

/-- Where `x` succeeds in a frame, `y` succeeds in the renamed one and gives the result of `x` as
`r` changes it. -/
def Follows (σ τ : String → String) (r : α → α) (y x : Lower α) : Prop :=
  ∀ (F G F' : Frame) (a : α), F.Renamed σ τ G → x F = .ok a F' →
    ∃ G', y G = .ok (r a) G' ∧ F'.Renamed σ τ G'

namespace Follows

variable {r : α → α} {q : β → β}

theorem pure {a b : α} (h : b = r a) : Follows σ τ r (pure b) (pure a) := by
  intro F G F' a' hF hx
  obtain ⟨rfl, rfl⟩ := pure_eq_ok.mp hx
  exact ⟨G, pure_eq_ok.mpr ⟨h, rfl⟩, hF⟩

theorem seq {x y : Lower β} {k l : β → Lower α} (hx : Follows σ τ q y x)
    (hk : ∀ b, Follows σ τ r (l (q b)) (k b)) : Follows σ τ r (y >>= l) (x >>= k) := by
  intro F G F' a hF h
  obtain ⟨b, F₁, hb, ha⟩ := seq_eq_ok.mp h
  obtain ⟨G₁, hb', hF₁⟩ := hx F G F₁ b hF hb
  obtain ⟨G', ha', hF'⟩ := hk b F₁ G₁ F' a hF₁ ha
  exact ⟨G', seq_eq_ok.mpr ⟨q b, G₁, hb', ha'⟩, hF'⟩

/-- Nothing is asked where the original fails. -/
theorem fail {cause : LoweringCause} {pos : Option Position} {y : Lower α} :
    Follows σ τ r y (Lower.fail cause pos) := fun _ _ _ _ _ h => (fail_eq_ok.mp h).elim

theorem build {pos : Option Position}
    {op op' : IR.Function → Nat → Except IR.Error (α × IR.Function)}
    (h : ∀ {f b a f'}, op f b = .ok (a, f') → op' (f.rename τ) b = .ok (r a, f'.rename τ)) :
    Follows σ τ r (build pos op') (build pos op) := by
  intro F G F' a hF hx
  obtain ⟨code, hop, rfl⟩ := build_eq_ok.mp hx
  refine ⟨{ G with code := code.rename τ }, build_eq_ok.mpr ⟨_, ?_, rfl⟩, rfl, hF.block, hF.scopes⟩
  rw [hF.code, hF.block]
  exact h hop

theorem performAt {pos : Option Position} {b : Nat}
    {op op' : IR.Function → Nat → Except IR.Error IR.Function}
    (h : ∀ {f b f'}, op f b = .ok f' → op' (f.rename τ) b = .ok (f'.rename τ)) :
    Follows σ τ id (performAt pos b op') (performAt pos b op) := by
  intro F G F' u hF hx
  obtain ⟨code, hop, rfl⟩ := performAt_eq_ok.mp hx
  refine ⟨{ G with code := code.rename τ }, performAt_eq_ok.mpr ⟨_, ?_, rfl⟩, rfl, hF.block,
    hF.scopes⟩
  rw [hF.code]
  exact h hop

theorem get_seq {k l : Frame → Lower α}
    (h : ∀ F G, F.Renamed σ τ G → Follows σ τ r (l G) (k F)) :
    Follows σ τ r (get >>= l) (get >>= k) := by
  intro F G F' a hF hx
  exact h F G hF F G F' a hF hx

theorem perform {pos : Option Position}
    {op op' : IR.Function → Nat → Except IR.Error IR.Function}
    (h : ∀ {f b f'}, op f b = .ok f' → op' (f.rename τ) b = .ok (f'.rename τ)) :
    Follows σ τ id (perform pos op') (perform pos op) := by
  refine get_seq fun F G hF => ?_
  rw [hF.block]
  exact performAt h

theorem modify {g g' : Frame → Frame} (h : ∀ F G, F.Renamed σ τ G → (g F).Renamed σ τ (g' G)) :
    Follows σ τ id (modify g' : Lower Unit) (modify g) := by
  intro F G F' u hF hx
  obtain rfl := modify_eq_ok.mp hx
  exact ⟨g' G, modify_eq_ok.mpr rfl, h F G hF⟩

theorem enter (b : Nat) : Follows σ τ id (enter b) (enter b) :=
  modify fun _ _ h => ⟨h.code, rfl, h.scopes⟩

theorem addBlock (label : String) : Follows σ τ id (addBlock label) (addBlock label) := by
  intro F G F' i hF hx
  simp only [Lower.addBlock, EStateM.Result.ok.injEq] at hx ⊢
  obtain ⟨rfl, rfl⟩ := hx
  rw [hF.code, IR.Function.rename_addBlock]
  exact ⟨_, ⟨rfl, rfl⟩, rfl, hF.block, hF.scopes⟩

theorem cast {pos : Option Position} {v : Value} {ty : IR.Ty} :
    Follows σ τ (·.rename τ) (cast pos (v.rename τ) ty) (cast pos v ty) :=
  build IR.Function.rename_cast

theorem branchIfOpen {pos : Option Position} {b target : Nat} :
    Follows σ τ id (branchIfOpen pos b target) (branchIfOpen pos b target) := by
  refine (build (r := id) IR.Function.rename_isClosed).seq fun closed => ?_
  cases closed with
  | true => exact pure rfl
  | false =>
    simp only [id_eq, Bool.false_eq_true, if_false]
    exact performAt IR.Function.rename_br

end Follows

/-! ## Expressions -/

/-- A variable is found by its new name. -/
theorem readVar_follows (hσ : Function.Injective σ) (name : String) (pos : Option Position) :
    Follows σ τ (·.rename τ) (readVar (σ name) pos) (readVar name pos) := by
  intro F G F' v hF h
  obtain ⟨b, F₁, hb, h⟩ := seq_eq_ok.mp h
  obtain ⟨hlookup, rfl⟩ := lookup?_eq_ok.mp hb
  have hlookup' := hF.scopes.lookup? hσ name
  rw [hlookup] at hlookup'
  rcases b with _ | sig | storage
  · cases fail_eq_ok.mp h
  · cases fail_eq_ok.mp h
  · have hload : Follows σ τ (·.rename τ) (build pos fun f b => f.load b (storage.rename τ))
        (build pos fun f b => f.load b storage) := .build IR.Function.rename_load
    obtain ⟨G', hG', hF'⟩ := hload F G F' v hF h
    exact ⟨G', seq_eq_ok.mpr ⟨_, G, lookup?_eq_ok.mpr ⟨hlookup', rfl⟩, hG'⟩, hF'⟩

/-- A function is found by the name that it has kept. -/
theorem callee_follows (hσ : Function.Injective σ) (name : String) (count : Nat)
    (pos : Option Position) :
    Follows σ τ id (callee name count pos) (callee name count pos) := by
  intro F G F' sig hF h
  obtain ⟨b, F₁, hb, h⟩ := seq_eq_ok.mp h
  obtain ⟨hlookup, rfl⟩ := lookup?_eq_ok.mp hb
  rcases b with _ | sig' | storage
  · cases fail_eq_ok.mp h
  · have hlookup' := hF.scopes.lookup?_function hσ hlookup
    dsimp only at h
    split at h
    next hcount =>
      obtain ⟨rfl, rfl⟩ := pure_eq_ok.mp h
      refine ⟨G, seq_eq_ok.mpr ⟨_, G, lookup?_eq_ok.mpr ⟨hlookup', rfl⟩, ?_⟩, hF⟩
      simp [hcount]
    next => cases fail_eq_ok.mp h
  · cases fail_eq_ok.mp h

theorem call_follows (hσ : Function.Injective σ) (name : String) (count : Nat)
    (pos : Option Position) {xs ys : List IR.Ty → Lower (List Value)}
    (h : ∀ tys, Follows σ τ (·.map (·.rename τ)) (ys tys) (xs tys)) :
    Follows σ τ (·.map (·.rename τ)) (call name count pos ys) (call name count pos xs) := by
  refine (callee_follows hσ name count pos).seq fun sig => ?_
  exact (h sig.params).seq fun _ => .build IR.Function.rename_call

theorem binary_follows (op : Operator) (l r : Value) (pos : Option Position) :
    Follows σ τ (·.rename τ) (binary op (l.rename τ) (r.rename τ) pos) (binary op l r pos) := by
  refine Follows.cast.seq fun l' => Follows.cast.seq fun r' => .build ?_
  intro f b v f' h
  cases op with
  | add | sub | mul | fdiv | idiv => exact IR.Function.rename_arith h
  | lt | gt | eq => exact IR.Function.rename_compare h

mutual

theorem expr_follows (hσ : Function.Injective σ) (e : Expr) :
    Follows σ τ (·.rename τ) (expr (e.rename σ)) (expr e) := by
  match e with
  | .literal c _ =>
    rw [Expr.rename, expr]
    exact .pure (by simp)
  | .var name pos =>
    rw [Expr.rename, expr, expr]
    exact readVar_follows hσ name pos
  | .binary op l r pos =>
    rw [Expr.rename, expr, expr]
    exact (expr_follows hσ l).seq fun _ =>
      (expr_follows hσ r).seq fun _ => binary_follows op _ _ pos
  | .call name args pos =>
    rw [Expr.rename, expr, expr, Expr.length_renameAll]
    refine (call_follows hσ name _ pos (exprs_follows hσ args)).seq fun v => ?_
    cases v with
    | none => exact .fail
    | some v => exact .pure rfl
  | .return _ _ => exact .fail
  | .assign _ _ _ _ => exact .fail

theorem exprs_follows (hσ : Function.Injective σ) (es : List Expr) (tys : List IR.Ty) :
    Follows σ τ (·.map (·.rename τ)) (exprs (Expr.renameAll σ es) tys) (exprs es tys) := by
  match es, tys with
  | [], _ =>
    rw [Expr.renameAll, exprs]
    · exact .pure rfl
    · simp
  | _ :: _, [] =>
    rw [Expr.renameAll, exprs, exprs]
    · exact .pure rfl
    · simp
    · simp
  | e :: es, ty :: tys =>
    rw [Expr.renameAll, exprs, exprs, Expr.pos_rename]
    refine (expr_follows hσ e).seq fun _ => Follows.cast.seq fun _ => ?_
    exact (exprs_follows hσ es tys).seq fun _ => .pure rfl

end

/-! ## Statements -/

/-- A new variable gets the same storage under its new name. -/
theorem bind_follows (pos : Option Position) (name : String) (v : Value) :
    Follows σ τ id (Lower.bind pos (σ name) (v.rename τ)) (Lower.bind pos name v) := by
  have halloca : Follows σ τ (·.rename τ) (build pos fun f b => f.alloca b v.ty)
      (build pos fun f b => f.alloca b v.ty) := .build IR.Function.rename_define
  refine halloca.seq fun storage => ?_
  refine (Follows.perform IR.Function.rename_store).seq fun _ => ?_
  exact .modify fun F G h => ⟨h.code, h.block, h.scopes.insert name storage⟩

theorem inScope_follows (b : Nat) {x y : Lower Unit} (h : Follows σ τ id y x) :
    Follows σ τ id (inScope b y) (inScope b x) := by
  have hpush : Follows σ τ id (modify fun F => { F with scopes := F.scopes.push } : Lower Unit)
      (modify fun F => { F with scopes := F.scopes.push }) :=
    .modify fun _ _ h => ⟨h.code, h.block, h.scopes.push⟩
  have hpop : Follows σ τ id (modify fun F => { F with scopes := F.scopes.pop } : Lower Unit)
      (modify fun F => { F with scopes := F.scopes.pop }) :=
    .modify fun _ _ h => ⟨h.code, h.block, h.scopes.pop⟩
  refine (Follows.enter b).seq fun _ => hpush.seq fun _ => h.seq fun _ => hpop.seq fun _ => ?_
  exact .get_seq fun F G hF => .pure hF.block

theorem assign_follows (hσ : Function.Injective σ) (name : String) (ty : Option Ty) (value : Expr)
    (pos : Option Position) :
    Follows σ τ id (assign (σ name) ty (value.rename σ) pos) (assign name ty value pos) := by
  refine (expr_follows hσ value).seq fun v => ?_
  cases ty with
  | none => exact bind_follows pos name v
  | some ty => exact Follows.cast.seq fun w => bind_follows pos name w

theorem return_follows (hσ : Function.Injective σ) (values : List Expr) (pos : Option Position) :
    Follows σ τ id («return» (Expr.renameAll σ values) pos) («return» values pos) := by
  refine .get_seq fun F G hF => ?_
  rw [hF.code, IR.Function.ret_rename]
  cases values with
  | nil => exact .perform IR.Function.rename_retVoid
  | cons first rest =>
    rw [Expr.renameAll]
    dsimp only
    split
    · exact .fail
    · refine (expr_follows hσ first).seq fun _ => Follows.cast.seq fun _ => ?_
      exact .perform IR.Function.rename_retValue

theorem exprStmt_follows (hσ : Function.Injective σ) (e : Expr) :
    Follows σ τ id (exprStmt (e.rename σ)) (exprStmt e) := by
  cases e with
  | assign name ty value pos =>
    rw [Expr.rename]
    exact assign_follows hσ name ty value pos
  | «return» values pos =>
    rw [Expr.rename]
    exact return_follows hσ values pos
  | call name args pos =>
    rw [Expr.rename, exprStmt, exprStmt, Expr.length_renameAll]
    exact (call_follows hσ name _ pos (exprs_follows hσ args)).seq fun _ => .pure rfl
  | literal | var | binary =>
    exact (expr_follows hσ _).seq fun _ => .pure rfl

mutual

theorem stmt_follows (hσ : Function.Injective σ) (s : Stmt) :
    Follows σ τ id (stmt (s.rename σ)) (stmt s) := by
  match s with
  | .expr e =>
    rw [Stmt.rename, stmt, stmt]
    exact exprStmt_follows hσ e
  | .branch c =>
    rw [Stmt.rename, stmt, stmt]
    exact (conditional_follows hσ c).seq fun _ => .pure rfl

theorem stmts_follows (hσ : Function.Injective σ) (ss : List Stmt) :
    Follows σ τ id (stmts (Stmt.renameAll σ ss)) (stmts ss) := by
  match ss with
  | [] =>
    rw [Stmt.renameAll, stmts]
    exact .pure rfl
  | s :: ss =>
    rw [Stmt.renameAll, stmts, stmts]
    exact (stmt_follows hσ s).seq fun _ => stmts_follows hσ ss

theorem conditional_follows (hσ : Function.Injective σ) (c : Conditional) :
    Follows σ τ id (conditional (c.rename σ)) (conditional c) := by
  match c with
  | ⟨guard, body, other, pos⟩ =>
    rw [Conditional.rename, conditional, conditional]
    refine (expr_follows hσ guard).seq fun _ => Follows.cast.seq fun cond => ?_
    refine .get_seq fun F G hF => ?_
    rw [hF.block]
    refine (Follows.addBlock _).seq fun yes => ?_
    refine (inScope_follows yes (stmts_follows hσ body)).seq fun yesEnd => ?_
    refine (Follows.addBlock _).seq fun next => ?_
    refine (otherwise_follows hσ next pos other).seq fun no => ?_
    refine (Follows.performAt IR.Function.rename_condBr).seq fun _ => ?_
    exact Follows.branchIfOpen.seq fun _ => (Follows.enter next).seq fun _ => .pure rfl

theorem otherwise_follows (hσ : Function.Injective σ) (next : Nat) (pos : Option Position)
    (other : Otherwise) :
    Follows σ τ id (otherwise next pos (other.rename σ)) (otherwise next pos other) := by
  match other with
  | .nothing =>
    rw [Otherwise.rename, otherwise]
    exact .pure rfl
  | .block body =>
    rw [Otherwise.rename, otherwise, otherwise]
    refine (Follows.addBlock _).seq fun no => ?_
    refine (inScope_follows no (stmts_follows hσ body)).seq fun _ => ?_
    exact Follows.branchIfOpen.seq fun _ => .pure rfl
  | .chain c =>
    rw [Otherwise.rename, otherwise, otherwise]
    refine (Follows.addBlock _).seq fun guard => (Follows.enter guard).seq fun _ => ?_
    exact (conditional_follows hσ c).seq fun _ => Follows.branchIfOpen.seq fun _ => .pure rfl

end

/-! ## Bodies -/

/-- Parameters are bound by the names that the code has for them. -/
theorem params_follows (pos : Option Position) {ps : List (String × IR.Ty)}
    (hps : ∀ q ∈ ps, σ q.1 = τ q.1) :
    Follows σ τ id (params pos (ps.map fun q => (τ q.1, q.2))) (params pos ps) := by
  induction ps with
  | nil => exact .pure rfl
  | cons q ps ih =>
    obtain ⟨hq, hps⟩ := List.forall_mem_cons.mp hps
    have hbind := bind_follows (σ := σ) (τ := τ) pos q.1 ⟨.param q.1, q.2⟩
    rw [hq] at hbind
    exact hbind.seq fun _ => ih hps

theorem finish_follows (pos : Option Position) : Follows σ τ id (finish pos) (finish pos) := by
  refine .get_seq fun F G hF => ?_
  rw [hF.code, IR.Function.ret_rename]
  refine (Follows.build (r := id) IR.Function.rename_isClosed).seq fun closed => ?_
  cases closed with
  | true => exact .pure rfl
  | false =>
    simp only [id_eq, Bool.false_eq_true, if_false]
    split
    · exact .perform IR.Function.rename_retVoid
    · exact .perform IR.Function.rename_terminate

/-- The body of a function whose parameters the code names as the source does. -/
theorem body_follows (hσ : Function.Injective σ) (d : Declaration) {F G F' : Frame} {u : Unit}
    (hF : F.Renamed σ τ G) (hps : ∀ q ∈ F.code.params, σ q.1 = τ q.1)
    (h : body d F = .ok u F') : ∃ G', body (d.rename σ) G = .ok u G' ∧ F'.Renamed σ τ G' := by
  obtain ⟨F₀, _, hget, h⟩ := seq_eq_ok.mp h
  obtain ⟨rfl, rfl⟩ := get_eq_ok.mp hget
  have hbody : Follows σ τ id
      (do params d.pos G.code.params; stmts (Stmt.renameAll σ d.body); finish d.pos)
      (do params d.pos F.code.params; stmts d.body; finish d.pos) := by
    rw [hF.code]
    refine (params_follows d.pos hps).seq fun _ => ?_
    exact (stmts_follows hσ d.body).seq fun _ => finish_follows d.pos
  exact hbody F G F' u hF h

end Lower
end ProcLang

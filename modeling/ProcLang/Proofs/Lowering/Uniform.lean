import ProcLang.Proofs.Lowering.Progress

/-!
# What lowering depends on

Lowering looks into the global scope only by asking what a name means. Two global scopes that give
the same answers lead to the same code, however they came about: the same instructions with the same
numbers in the same blocks, or the same failure.

## Main definitions

* `Scopes.Alike`, `Frame.Alike` — scopes and frames that cannot be told apart.
* `Lower.Uniform` — actions that do the same in frames that are alike.

## Main statements

* `Lower.body_uniform`, `Declaration.built_eq`.
-/
namespace ProcLang

open IR (Value)

/-! ## Scopes that are alike -/

/-- The open scopes are the same, and names mean the same in the global one. -/
structure Scopes.Alike {α : Type} (S S' : Scopes α) : Prop where
  inner : S.inner = S'.inner
  global : ∀ name, S.global.lookup name = S'.global.lookup name

namespace Scopes.Alike

variable {α : Type} {S S' : Scopes α}

theorem lookup? (h : S.Alike S') (name : String) : S.lookup? name = S'.lookup? name := by
  simp only [Scopes.lookup?, Scopes.all, List.findSome?_append, h.inner, List.findSome?_cons,
    h.global name]

theorem push (h : S.Alike S') : S.push.Alike S'.push := ⟨congrArg ([] :: ·) h.inner, h.global⟩

theorem pop (h : S.Alike S') : S.pop.Alike S'.pop := ⟨congrArg List.tail h.inner, h.global⟩

theorem insert (h : S.Alike S') (name : String) (a : α) :
    (S.insert name a).Alike (S'.insert name a) := by
  obtain ⟨inner, global⟩ := S
  obtain ⟨inner', global'⟩ := S'
  obtain rfl : inner = inner' := h.inner
  cases inner with
  | nil =>
    -- Without an open scope the name is bound globally, in front of the names that are alike.
    refine ⟨rfl, fun other => ?_⟩
    simp only [Scopes.insert, List.lookup_cons, h.global other]
  | cons scope inner => exact ⟨rfl, h.global⟩

end Scopes.Alike

/-- Frames with the same code and the same block, and scopes that are alike. -/
structure Frame.Alike (F F' : Frame) : Prop where
  code : F.code = F'.code
  block : F.block = F'.block
  scopes : F.scopes.Alike F'.scopes

theorem Scopes.Alike.frame {S S' : Scopes Binding} (h : S.Alike S') (code : IR.Function)
    (block : Nat) : Frame.Alike ⟨code, S, block⟩ ⟨code, S', block⟩ := ⟨rfl, rfl, h⟩

/-! ## Actions -/

namespace Lower

variable {α β : Type}

/-- The same result or the same failure, in frames that are alike. -/
inductive SameResult : EStateM.Result LoweringError Frame α →
    EStateM.Result LoweringError Frame α → Prop where
  | ok {a : α} {F F' : Frame} (h : F.Alike F') : SameResult (.ok a F) (.ok a F')
  | error {e : LoweringError} {F F' : Frame} (h : F.Alike F') :
      SameResult (.error e F) (.error e F')

/-- The action does the same in frames that are alike. -/
def Uniform (act : Lower α) : Prop := ∀ F F' : Frame, F.Alike F' → SameResult (act F) (act F')

namespace Uniform

theorem pure (a : α) : Uniform (pure a : Lower α) := fun _ _ h => .ok h

theorem seq {x : Lower β} {k : β → Lower α} (hx : Uniform x) (hk : ∀ b, Uniform (k b)) :
    Uniform (x >>= k) := by
  intro F F' h
  have hfirst := hx F F' h
  change SameResult (EStateM.bind x k F) (EStateM.bind x k F')
  unfold EStateM.bind
  generalize x F = r at hfirst
  generalize x F' = r' at hfirst
  cases hfirst with
  | ok h => exact hk _ _ _ h
  | error h => exact .error h

theorem final {act : Lower α} (hact : Uniform act) {F F' : Frame} (h : F.Alike F') :
    (act.final F).Alike (act.final F') := by
  have hsame := hact F F' h
  unfold Lower.final
  generalize act F = r at hsame
  generalize act F' = r' at hsame
  cases hsame with
  | ok h => exact h
  | error h => exact h

theorem succeeds {act : Lower α} (hact : Uniform act) {F F' : Frame} (h : F.Alike F')
    (hF : Succeeds act F) : Succeeds act F' := by
  obtain ⟨a, G, hG⟩ := hF
  have hsame := hact F F' h
  rw [hG] at hsame
  generalize hr : act F' = r at hsame
  cases hsame with
  | ok _ => exact ⟨_, _, hr⟩

theorem fail {cause : LoweringCause} {pos : Option Position} :
    Uniform (Lower.fail cause pos : Lower α) := fun _ _ h => .error h

theorem build {pos : Option Position}
    {op : IR.Function → Nat → Except IR.Error (α × IR.Function)} : Uniform (build pos op) := by
  intro F F' h
  unfold Lower.build
  rw [h.code, h.block]
  cases op F'.code F'.block with
  | ok r => exact .ok ⟨rfl, rfl, h.scopes⟩
  | error e => exact .error h

theorem performAt {pos : Option Position} {b : Nat}
    {op : IR.Function → Nat → Except IR.Error IR.Function} : Uniform (performAt pos b op) := by
  intro F F' h
  unfold Lower.performAt
  rw [h.code]
  cases op F'.code b with
  | ok code => exact .ok ⟨rfl, h.block, h.scopes⟩
  | error e => exact .error h

theorem modify (g : Frame → Frame) (hg : ∀ F F', F.Alike F' → (g F).Alike (g F')) :
    Uniform (modify g : Lower Unit) := fun F F' h => .ok (hg F F' h)

/-- What is done with the frame depends on its code and block only. -/
theorem get_seq {k : Frame → Lower α} (hk : ∀ F, Uniform (k F))
    (hsame : ∀ F F', F.Alike F' → k F = k F') : Uniform (get >>= k) := by
  intro F F' h
  change SameResult (k F F) (k F' F')
  rw [hsame F F' h]
  exact hk F' F F' h

theorem perform {pos : Option Position} {op : IR.Function → Nat → Except IR.Error IR.Function} :
    Uniform (perform pos op) := by
  refine get_seq (fun _ => performAt) ?_
  intro F F' h
  rw [h.block]

theorem lookup (name : String) : Uniform (Lower.lookup? name) := by
  refine get_seq (fun _ => pure _) ?_
  intro F F' h
  rw [h.scopes.lookup? name]

theorem enter (b : Nat) : Uniform (enter b) := modify _ fun _ _ h => ⟨h.code, rfl, h.scopes⟩

theorem addBlock (label : String) : Uniform (addBlock label) := by
  intro F F' h
  unfold Lower.addBlock
  rw [h.code]
  exact .ok ⟨rfl, h.block, h.scopes⟩

theorem cast {pos : Option Position} {v : Value} {ty : IR.Ty} : Uniform (cast pos v ty) := build

theorem branchIfOpen {pos : Option Position} {b target : Nat} :
    Uniform (branchIfOpen pos b target) := by
  refine build.seq fun closed => ?_
  cases closed with
  | true => exact pure ()
  | false =>
    rw [if_neg (by simp)]
    exact performAt

end Uniform

/-! ## Expressions -/

theorem readVar_uniform (name : String) (pos : Option Position) : Uniform (readVar name pos) := by
  refine (Uniform.lookup name).seq fun b => ?_
  rcases b with _ | sig | storage
  · exact .fail
  · exact .fail
  · exact .build

theorem callee_uniform (name : String) (count : Nat) (pos : Option Position) :
    Uniform (callee name count pos) := by
  refine (Uniform.lookup name).seq fun b => ?_
  rcases b with _ | sig | storage
  · exact .fail
  · dsimp only
    split
    · exact .pure sig
    · exact .fail
  · exact .fail

theorem call_uniform (name : String) (count : Nat) (pos : Option Position)
    {arguments : List IR.Ty → Lower (List Value)} (h : ∀ tys, Uniform (arguments tys)) :
    Uniform (call name count pos arguments) := by
  refine (callee_uniform name count pos).seq fun sig => ?_
  exact (h sig.params).seq fun _ => .build

theorem binary_uniform (op : Operator) (l r : Value) (pos : Option Position) :
    Uniform (binary op l r pos) :=
  Uniform.cast.seq fun _ => Uniform.cast.seq fun _ => .build

mutual

theorem expr_uniform (e : Expr) : Uniform (expr e) := by
  match e with
  | .literal _ _ => exact .pure _
  | .var name pos => exact readVar_uniform name pos
  | .binary op l r pos =>
    rw [expr]
    exact (expr_uniform l).seq fun _ => (expr_uniform r).seq fun _ => binary_uniform op _ _ pos
  | .call name args pos =>
    rw [expr]
    refine (call_uniform name _ pos (exprs_uniform args)).seq fun v => ?_
    cases v with
    | none => exact .fail
    | some v => exact .pure v
  | .return _ _ => exact .fail
  | .assign _ _ _ _ => exact .fail

theorem exprs_uniform (es : List Expr) (tys : List IR.Ty) : Uniform (exprs es tys) := by
  match es, tys with
  | [], _ =>
    rw [exprs]
    · exact .pure _
    · simp
  | _ :: _, [] =>
    rw [exprs]
    · exact .pure _
    · simp
  | e :: es, ty :: tys =>
    rw [exprs]
    refine (expr_uniform e).seq fun _ => Uniform.cast.seq fun _ => ?_
    exact (exprs_uniform es tys).seq fun _ => .pure _

end

/-! ## Statements -/

theorem bind_uniform (pos : Option Position) (name : String) (v : Value) :
    Uniform (Lower.bind pos name v) := by
  refine Uniform.build.seq fun storage => Uniform.perform.seq fun _ => ?_
  exact .modify _ fun _ _ h => ⟨h.code, h.block, h.scopes.insert name _⟩

theorem inScope_uniform (b : Nat) {body : Lower Unit} (h : Uniform body) :
    Uniform (inScope b body) := by
  have hpush : Uniform (modify fun F => { F with scopes := F.scopes.push } : Lower Unit) :=
    .modify _ fun _ _ h => ⟨h.code, h.block, h.scopes.push⟩
  have hpop : Uniform (modify fun F => { F with scopes := F.scopes.pop } : Lower Unit) :=
    .modify _ fun _ _ h => ⟨h.code, h.block, h.scopes.pop⟩
  refine (Uniform.enter b).seq fun _ => hpush.seq fun _ => h.seq fun _ => hpop.seq fun _ => ?_
  refine .get_seq (fun _ => .pure _) ?_
  intro F F' h
  rw [h.block]

theorem assign_uniform (name : String) (ty : Option Ty) (value : Expr) (pos : Option Position) :
    Uniform (assign name ty value pos) := by
  refine (expr_uniform value).seq fun v => ?_
  cases ty with
  | none => exact bind_uniform pos name v
  | some ty => exact Uniform.cast.seq fun w => bind_uniform pos name w

theorem return_uniform (values : List Expr) (pos : Option Position) :
    Uniform («return» values pos) := by
  refine .get_seq (fun F => ?_) ?_
  · cases values with
    | nil => exact .perform
    | cons first rest =>
      dsimp only
      split
      · exact .fail
      · exact (expr_uniform first).seq fun _ => Uniform.cast.seq fun _ => .perform
  · intro F F' h
    rw [h.code]

theorem exprStmt_uniform (e : Expr) : Uniform (exprStmt e) := by
  cases e with
  | assign name ty value pos => exact assign_uniform name ty value pos
  | «return» values pos => exact return_uniform values pos
  | call name args pos =>
    exact (call_uniform name _ pos (exprs_uniform args)).seq fun _ => .pure ()
  | literal | var | binary => exact (expr_uniform _).seq fun _ => .pure ()

mutual

theorem stmt_uniform (s : Stmt) : Uniform (stmt s) := by
  match s with
  | .expr e => exact exprStmt_uniform e
  | .branch c =>
    rw [stmt]
    exact (conditional_uniform c).seq fun _ => .pure ()

theorem stmts_uniform (ss : List Stmt) : Uniform (stmts ss) := by
  match ss with
  | [] => exact .pure ()
  | s :: ss =>
    rw [stmts]
    exact (stmt_uniform s).seq fun _ => stmts_uniform ss

theorem conditional_uniform (c : Conditional) : Uniform (conditional c) := by
  match c with
  | ⟨guard, body, other, pos⟩ =>
    rw [conditional]
    refine (expr_uniform guard).seq fun _ => Uniform.cast.seq fun cond => ?_
    refine .get_seq (fun F => ?_) ?_
    · refine (Uniform.addBlock _).seq fun yes => ?_
      refine (inScope_uniform yes (stmts_uniform body)).seq fun yesEnd => ?_
      refine (Uniform.addBlock _).seq fun next => ?_
      refine (otherwise_uniform next pos other).seq fun no => Uniform.performAt.seq fun _ => ?_
      exact Uniform.branchIfOpen.seq fun _ => (Uniform.enter next).seq fun _ => .pure next
    · intro F F' h
      rw [h.block]

theorem otherwise_uniform (next : Nat) (pos : Option Position) (other : Otherwise) :
    Uniform (otherwise next pos other) := by
  match other with
  | .nothing => exact .pure next
  | .block body =>
    rw [otherwise]
    refine (Uniform.addBlock _).seq fun no => ?_
    refine (inScope_uniform no (stmts_uniform body)).seq fun _ => ?_
    exact Uniform.branchIfOpen.seq fun _ => .pure no
  | .chain c =>
    rw [otherwise]
    refine (Uniform.addBlock _).seq fun guard => (Uniform.enter guard).seq fun _ => ?_
    exact (conditional_uniform c).seq fun _ => Uniform.branchIfOpen.seq fun _ => .pure guard

end

/-! ## Bodies -/

theorem params_uniform (pos : Option Position) (ps : List (String × IR.Ty)) :
    Uniform (params pos ps) := by
  induction ps with
  | nil => exact .pure ()
  | cons q ps ih => exact (bind_uniform pos q.1 _).seq fun _ => ih

theorem finish_uniform (pos : Option Position) : Uniform (finish pos) := by
  refine .get_seq (fun F => Uniform.build.seq fun closed => ?_) ?_
  · cases closed with
    | true => exact .pure ()
    | false =>
      rw [if_neg (by simp)]
      split
      · exact .perform
      · exact .perform
  · intro F F' h
    rw [h.code]

/-- The body of a function depends on its own statements and the meanings of names. -/
theorem body_uniform (d : Declaration) : Uniform (body d) := by
  refine .get_seq (fun F => ?_) ?_
  · refine (params_uniform d.pos F.code.params).seq fun _ => ?_
    exact (stmts_uniform d.body).seq fun _ => finish_uniform d.pos
  · intro F F' h
    rw [h.code]

end Lower

/-- Scopes that are alike lead to the same code. -/
theorem Declaration.built_eq {S S' : Scopes Binding} (h : S.Alike S') (d : Declaration) :
    d.built S = d.built S' :=
  ((Lower.body_uniform d).final (h.push.frame d.header.entry 0)).code

end ProcLang

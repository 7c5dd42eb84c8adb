import ProcLang.Proofs.Lowering.Functions
import ProcLang.Proofs.Source.Linked

/-!
# Faults of linked programs

A linked program can still have faults, but none that linking rules out: it calls functions that are
there with as many arguments as they take, it reads no function like a variable, and it needs no
value of a return or an assignment. A local variable may still hide a function that is called.

## Main definitions

* `LoweringCause.isLinkFault` — the faults that linking rules out.
* `Lower.Avoids` — actions that never fail with one of them.

## Main statements

* `Program.isLinkFault_of_lower` — a linked program has none of these faults.
-/
namespace ProcLang

open IR (Value)

/-- The faults that linking rules out. -/
def LoweringCause.isLinkFault : LoweringCause → Bool
  | .functionAsValue _ | .unresolvedFunction _ | .argumentCount _ _ _ | .notAValue _ => true
  | .ir e => e.kind == .argCount
  | _ => false

/-! ## Operations on code -/

namespace IR

/-- An operation that does not fail for a number of arguments. -/
def Counted {α : Type} (x : Except Error α) : Prop := ∀ e, x = .error e → e.kind ≠ .argCount

theorem counted_ok {α : Type} (a : α) : Counted (.ok a : Except Error α) := by simp [Counted]

theorem counted_error {α : Type} {e : Error} (h : e.kind ≠ .argCount) :
    Counted (.error e : Except Error α) := by simpa [Counted] using h

/-- What follows an operation that has failed is that it has failed. -/
theorem Counted.pass {α β : Type} {x : Except Error α} (h : Counted x) {e : Error}
    (hx : x = .error e) : Counted (.error e : Except Error β) := counted_error (h e hx)

namespace Function

variable {f : Function} {b : Nat} {v l r : Value}

theorem counted_block : Counted (f.block b) := by
  unfold Function.block
  split
  · exact counted_ok _
  · exact counted_error (by simp [Error.kind])

theorem counted_define {ty : Ty} {op : Operation} : Counted (f.define b ty op) := by
  unfold define
  split
  next e h => exact counted_block.pass h
  next => split <;> simp [Counted, Error.kind]

theorem counted_perform {op : Operation} : Counted (f.perform b op) := by
  unfold perform Block.push
  split
  next e h => exact counted_block.pass h
  next block _ => cases block.isClosed <;> simp [Counted, Error.kind]

theorem counted_terminate {t : Terminator} : Counted (f.terminate b t) := by
  unfold terminate Block.close
  split
  next e h => exact counted_block.pass h
  next block _ => cases block.isClosed <;> simp [Counted, Error.kind]

theorem counted_isClosed : Counted ((f.isClosed b).map (·, f)) := by
  unfold isClosed
  cases h : f.block b with
  | error e => exact counted_block.pass h
  | ok block => exact counted_ok _

theorem counted_load : Counted (f.load b v) := by
  unfold load
  split
  · exact counted_error (by simp [Error.kind])
  · exact counted_define

theorem counted_store : Counted (f.store b l r) := by
  unfold store
  split
  · exact counted_error (by simp [Error.kind])
  · split
    · exact counted_perform
    · exact counted_error (by simp [Error.kind])

theorem counted_arith {op : Arith} : Counted (f.arith b op l r) := by
  unfold arith
  split
  · exact counted_error (by simp [Error.kind])
  · split
    · exact counted_define
    · exact counted_error (by simp [Error.kind])

theorem counted_compare {op : Relation} : Counted (f.compare b op l r) := by
  unfold compare
  split
  · exact counted_error (by simp [Error.kind])
  · split
    · exact counted_error (by simp [Error.kind])
    · exact counted_define

theorem counted_cast {ty : Ty} : Counted (f.cast b v ty) := by
  unfold cast
  split
  · exact counted_ok _
  · split
    · exact counted_ok _
    · split
      · exact counted_compare
      · split
        · exact counted_define
        · exact counted_error (by simp [Error.kind])

theorem argumentError?_kind {function : String} {index : Nat} {tys : List Ty} {args : List Value}
    {e : Error} (h : argumentError? function index tys args = some e) : e.kind ≠ .argCount := by
  induction tys generalizing index args with
  | nil => simp [argumentError?] at h
  | cons ty tys ih =>
    cases args with
    | nil => simp [argumentError?] at h
    | cons arg args =>
      unfold argumentError? at h
      split at h
      · exact ih h
      · cases h
        simp [Error.kind]

/-- A call with the right number of arguments. -/
theorem counted_call {sig : Signature} {args : List Value}
    (h : args.length = sig.params.length) : Counted (f.call b sig args) := by
  unfold call
  rw [if_neg (by simpa using h.symm)]
  split
  next e he => exact counted_error (argumentError?_kind he)
  next =>
    cases sig.ret.isVoid with
    | true =>
      simp only [if_true]
      cases hp : f.perform b (.call sig.name sig.ret args) with
      | ok f' => exact counted_ok _
      | error e => exact counted_perform.pass hp
    | false =>
      simp only [Bool.false_eq_true, if_false]
      cases hd : f.define b sig.ret (.call sig.name sig.ret args) with
      | ok r => exact counted_ok _
      | error e => exact counted_define.pass hd

theorem counted_br {target : Nat} : Counted (f.br b target) := by
  unfold br
  split
  next e h => exact counted_block.pass h
  next => exact counted_terminate

theorem counted_condBr {yes no : Nat} : Counted (f.condBr b v yes no) := by
  unfold condBr
  split
  · split
    next e h => exact counted_block.pass h
    next =>
      split
      next e h => exact counted_block.pass h
      next => exact counted_terminate
  · exact counted_error (by simp [Error.kind])

theorem counted_retValue : Counted (f.retValue b v) := by
  unfold retValue
  split
  · exact counted_terminate
  · exact counted_error (by simp [Error.kind])

theorem counted_retVoid : Counted (f.retVoid b) := by
  unfold retVoid
  split
  · exact counted_terminate
  · exact counted_error (by simp [Error.kind])

end Function
end IR

theorem Operator.counted_emit (op : Operator) (l r : Value) (f : IR.Function) (b : Nat) :
    IR.Counted (op.emit l r f b) := by
  cases op with
  | lt | gt | eq => exact IR.Function.counted_compare
  | add | sub | mul | fdiv | idiv => exact IR.Function.counted_arith

/-! ## Scopes of a body -/

/-- Scopes inside the global scope `G`, so many as `depth` says, that bind variables only. -/
structure Scopes.Locals (G : Scope Binding) (depth : Nat) (S : Scopes Binding) : Prop where
  global : S.global = G
  depth : S.inner.length = depth
  slots : ∀ scope ∈ S.inner, ∀ x ∈ scope, ∃ v, x.2 = .slot v

namespace Scopes.Locals

variable {G : Scope Binding} {depth : Nat} {S : Scopes Binding}

/-- A name is a local variable, or it means what it means outside of the body. -/
theorem lookup (h : S.Locals G depth) (name : String) :
    (∃ v, S.lookup? name = some (.slot v)) ∨ S.lookup? name = G.lookup name := by
  obtain ⟨inner, global⟩ := S
  obtain ⟨rfl, -, hs⟩ := h
  induction inner with
  | nil => exact .inr (Scopes.lookup?_global global name)
  | cons scope inner ih =>
    obtain ⟨hscope, hs⟩ := List.forall_mem_cons.mp hs
    cases hl : List.lookup name scope with
    | some b =>
      obtain ⟨l, l', heq, -⟩ := List.lookup_eq_some_iff.mp hl
      obtain ⟨v, hv⟩ := hscope (name, b) (by simp [heq])
      exact .inl ⟨v, by simpa [lookup?, all, hl] using hv⟩
    | none => simpa [lookup?, all, hl] using ih hs

theorem push (h : S.Locals G depth) : S.push.Locals G (depth + 1) :=
  ⟨h.global, by simp [Scopes.push, h.depth], by simpa [Scopes.push] using h.slots⟩

theorem pop (h : S.Locals G (depth + 1)) : S.pop.Locals G depth :=
  ⟨h.global, by simp [Scopes.pop, h.depth],
    fun scope hs => h.slots scope (List.mem_of_mem_tail hs)⟩

theorem insert (h : S.Locals G (depth + 1)) (name : String) (v : Value) :
    (S.insert name (.slot v)).Locals G (depth + 1) := by
  obtain ⟨inner, global⟩ := S
  obtain ⟨rfl, hd, hs⟩ := h
  cases inner with
  | nil => cases hd
  | cons scope inner =>
    obtain ⟨hscope, hs⟩ := List.forall_mem_cons.mp hs
    refine ⟨rfl, hd, List.forall_mem_cons.mpr ⟨?_, hs⟩⟩
    exact List.forall_mem_cons.mpr ⟨⟨v, rfl⟩, hscope⟩

end Scopes.Locals

/-! ## Actions -/

namespace Lower

theorem seq_eq_error {ε σ α β : Type} {x : EStateM ε σ α} {k : α → EStateM ε σ β} {e : ε}
    {s s' : σ} : (x >>= k) s = .error e s' ↔
      x s = .error e s' ∨ ∃ a s₁, x s = .ok a s₁ ∧ k a s₁ = .error e s' := by
  change EStateM.bind x k s = _ ↔ _
  unfold EStateM.bind
  cases x s with
  | ok a s₁ => simp [and_assoc]
  | error e s₁ => simp

variable {α β : Type} {I : Scopes Binding → Prop} {Q : α → Prop} {R : β → Prop}

/-- From scopes of which `I` holds the action leads to such scopes again, with a result of which
`Q` holds, and if it fails then not with a fault that linking rules out. -/
def Avoids (I : Scopes Binding → Prop) (act : Lower α) (Q : α → Prop) : Prop :=
  ∀ F, I F.scopes → match act F with
    | .ok a F' => I F'.scopes ∧ Q a
    | .error e _ => e.cause.isLinkFault = false

namespace Avoids

theorem pure {a : α} (h : Q a) : Avoids I (pure a) Q := fun _ hF => ⟨hF, h⟩

theorem seq {x : Lower β} {k : β → Lower α} (hx : Avoids I x R)
    (hk : ∀ b, R b → Avoids I (k b) Q) : Avoids I (x >>= k) Q := by
  intro F hF
  have hx := hx F hF
  change match EStateM.bind x k F with
    | .ok a F' => I F'.scopes ∧ Q a
    | .error e _ => e.cause.isLinkFault = false
  unfold EStateM.bind
  cases h : x F with
  | error e F' => simpa [h] using hx
  | ok b F' =>
    simp only [h] at hx
    exact hk b hx.2 F' hx.1

theorem fail {cause : LoweringCause} {pos : Option Position} (h : cause.isLinkFault = false) :
    Avoids I (Lower.fail cause pos) Q := fun _ _ => h

theorem isLinkFault_ir {e : IR.Error} (h : e.kind ≠ .argCount) :
    (LoweringCause.ir e).isLinkFault = false := by
  simpa [LoweringCause.isLinkFault] using h

theorem build {pos : Option Position} {op : IR.Function → Nat → Except IR.Error (α × IR.Function)}
    (h : ∀ f b, IR.Counted (op f b)) : Avoids I (Lower.build pos op) (fun _ => True) := by
  intro F hF
  unfold Lower.build
  cases hop : op F.code F.block with
  | ok r => exact ⟨hF, trivial⟩
  | error e => exact isLinkFault_ir (h _ _ e hop)

theorem performAt {pos : Option Position} {b : Nat}
    {op : IR.Function → Nat → Except IR.Error IR.Function} (h : ∀ f b, IR.Counted (op f b)) :
    Avoids I (Lower.performAt pos b op) (fun _ => True) := by
  intro F hF
  unfold Lower.performAt
  cases hop : op F.code b with
  | ok code => exact ⟨hF, trivial⟩
  | error e => exact isLinkFault_ir (h _ _ e hop)

theorem get : Avoids I (get : Lower Frame) (fun _ => True) := fun _ hF => ⟨hF, trivial⟩

theorem perform {pos : Option Position} {op : IR.Function → Nat → Except IR.Error IR.Function}
    (h : ∀ f b, IR.Counted (op f b)) : Avoids I (Lower.perform pos op) (fun _ => True) :=
  get.seq fun _ _ => performAt h

theorem lookup {name : String} :
    Avoids I (Lower.lookup? name) (fun b => ∃ S, I S ∧ S.lookup? name = b) :=
  fun F hF => ⟨hF, F.scopes, hF, rfl⟩

theorem addBlock {label : String} : Avoids I (Lower.addBlock label) (fun _ => True) :=
  fun _ hF => ⟨hF, trivial⟩

theorem enter {b : Nat} : Avoids I (Lower.enter b) (fun _ => True) := fun _ hF => ⟨hF, trivial⟩

theorem cast {pos : Option Position} {v : Value} {ty : IR.Ty} :
    Avoids I (Lower.cast pos v ty) (fun _ => True) :=
  build fun _ _ => IR.Function.counted_cast

theorem branchIfOpen {pos : Option Position} {b target : Nat} :
    Avoids I (Lower.branchIfOpen pos b target) (fun _ => True) := by
  refine (build fun _ _ => IR.Function.counted_isClosed).seq fun closed _ => ?_
  cases closed with
  | true => exact .pure trivial
  | false =>
    rw [if_neg (by simp)]
    exact performAt fun _ _ => IR.Function.counted_br

end Avoids
end Lower

/-! ## Functions of a program -/

namespace Program

variable {p : Program} {name : String}

theorem lookup_of_arity?_eq_none (hn : (p.map (·.name)).Nodup) (h : p.arity? name = none) :
    p.scopes.global.lookup name = none := by
  rw [lookup_global hn, Option.map_eq_none_iff.mp h]
  rfl

theorem lookup_of_arity?_eq_some (hn : (p.map (·.name)).Nodup) {n : Nat}
    (h : p.arity? name = some n) :
    ∃ sig, p.scopes.global.lookup name = some (.function sig) ∧ sig.params.length = n := by
  obtain ⟨d, hd, rfl⟩ := Option.map_eq_some_iff.mp h
  refine ⟨d.header.signature, by rw [lookup_global hn, hd]; rfl, ?_⟩
  simp [Declaration.header, IR.Function.signature, Declaration.irParams]

end Program

/-! ## Expressions -/

namespace Lower

variable {p : Program} {depth : Nat}

theorem readVar_avoids (hn : (p.map (·.name)).Nodup) {name : String} (h : p.arity? name = none)
    (pos : Option Position) :
    Avoids (Scopes.Locals p.scopes.global depth) (readVar name pos) (fun _ => True) := by
  refine Avoids.lookup.seq fun b ⟨S, hS, hb⟩ => ?_
  match b with
  | some (.slot v) => exact .build fun _ _ => IR.Function.counted_load
  | none => exact .fail rfl
  | some (.function sig) =>
    -- No function is found: the name is that of a local variable, or of nothing.
    obtain ⟨v, hv⟩ | hg := hS.lookup name
    · simp [hv] at hb
    · simp [hg, Program.lookup_of_arity?_eq_none hn h] at hb

theorem callee_avoids (hn : (p.map (·.name)).Nodup) {name : String} {count : Nat}
    (h : p.arity? name = some count) (pos : Option Position) :
    Avoids (Scopes.Locals p.scopes.global depth) (callee name count pos)
      (fun sig => sig.params.length = count) := by
  refine Avoids.lookup.seq fun b ⟨S, hS, hb⟩ => ?_
  obtain ⟨sig, hsig, hcount⟩ := Program.lookup_of_arity?_eq_some hn h
  obtain ⟨v, hv⟩ | hg := hS.lookup name
  · rw [← hb, hv]
    exact .fail rfl
  · rw [← hb, hg, hsig]
    simp only [hcount, if_true]
    exact .pure hcount

theorem call_avoids (hn : (p.map (·.name)).Nodup) {name : String} {count : Nat}
    (h : p.arity? name = some count) (pos : Option Position)
    {arguments : List IR.Ty → Lower (List Value)} (ha : ∀ tys : List IR.Ty, tys.length = count →
      Avoids (Scopes.Locals p.scopes.global depth) (arguments tys)
        (fun vs => vs.length = tys.length)) :
    Avoids (Scopes.Locals p.scopes.global depth) (call name count pos arguments)
      (fun _ => True) := by
  refine (callee_avoids hn h pos).seq fun sig hsig => ?_
  refine (ha sig.params hsig).seq fun vs hvs => ?_
  exact .build fun _ _ => IR.Function.counted_call hvs

theorem binary_avoids {I : Scopes Binding → Prop} (op : Operator) (l r : Value)
    (pos : Option Position) : Avoids I (binary op l r pos) (fun _ => True) := by
  refine Avoids.cast.seq fun _ _ => Avoids.cast.seq fun _ _ => ?_
  exact .build fun f b => op.counted_emit _ _ f b

mutual

theorem expr_avoids (hn : (p.map (·.name)).Nodup) (e : Expr) (hl : e.Linked p.arity?) :
    Avoids (Scopes.Locals p.scopes.global depth) (expr e) (fun _ => True) := by
  match e with
  | .literal _ _ => exact .pure trivial
  | .var name pos => exact readVar_avoids hn hl pos
  | .binary op l r pos =>
    rw [expr]
    exact (expr_avoids hn l hl.1).seq fun _ _ => (expr_avoids hn r hl.2).seq fun _ _ =>
      binary_avoids op _ _ pos
  | .call name args pos =>
    rw [expr]
    refine (call_avoids hn hl.1 pos fun tys htys => exprs_avoids hn args hl.2 tys htys).seq ?_
    intro r _
    cases r with
    | none => exact .fail rfl
    | some v => exact .pure trivial
  | .return _ _ | .assign _ _ _ _ => cases hl

theorem exprs_avoids (hn : (p.map (·.name)).Nodup) (es : List Expr)
    (hl : Expr.AllLinked p.arity? es) (tys : List IR.Ty) (hlen : tys.length = es.length) :
    Avoids (Scopes.Locals p.scopes.global depth) (exprs es tys)
      (fun vs => vs.length = tys.length) := by
  match es, tys with
  | [], [] =>
    rw [exprs]
    · exact .pure rfl
    · simp
  | e :: es, ty :: tys =>
    rw [exprs]
    refine (expr_avoids hn e hl.1).seq fun v _ => Avoids.cast.seq fun w _ => ?_
    refine (exprs_avoids hn es hl.2 tys (by simpa using hlen)).seq fun ws hws => ?_
    exact .pure (by simpa using hws)

end

/-! ## Statements -/

theorem bind_avoids {G : Scope Binding} (pos : Option Position) (name : String) (v : Value) :
    Avoids (Scopes.Locals G (depth + 1)) (Lower.bind pos name v) (fun _ => True) := by
  refine (Avoids.build fun _ _ => IR.Function.counted_define).seq fun storage _ => ?_
  refine (Avoids.perform fun _ _ => IR.Function.counted_store).seq fun _ _ => ?_
  exact fun F hF => ⟨hF.insert name storage, trivial⟩

/-- A body in a scope of its own. -/
theorem inScope_avoids {G : Scope Binding} {body : Lower Unit}
    (h : Avoids (Scopes.Locals G (depth + 1)) body (fun _ => True)) (b : Nat) :
    Avoids (Scopes.Locals G depth) (inScope b body) (fun _ => True) := by
  intro F hF
  have hbody := h { F with block := b, scopes := F.scopes.push } hF.push
  have hrun : inScope b body F =
      match body { F with block := b, scopes := F.scopes.push } with
      | .ok _ F' => .ok F'.block { F' with scopes := F'.scopes.pop }
      | .error e F' => .error e F' := by
    change EStateM.bind body _ _ = _
    unfold EStateM.bind
    cases body { F with block := b, scopes := F.scopes.push } <;> rfl
  rw [hrun]
  cases hb : body { F with block := b, scopes := F.scopes.push } with
  | ok u F' =>
    simp only [hb] at hbody
    exact ⟨hbody.1.pop, trivial⟩
  | error e F' => simpa [hb] using hbody

theorem assign_avoids (hn : (p.map (·.name)).Nodup) {value : Expr} (hl : value.Linked p.arity?)
    (name : String) (ty : Option Ty) (pos : Option Position) :
    Avoids (Scopes.Locals p.scopes.global (depth + 1)) (assign name ty value pos)
      (fun _ => True) := by
  refine (expr_avoids hn value hl).seq fun v _ => ?_
  cases ty with
  | none => exact bind_avoids pos name v
  | some ty => exact Avoids.cast.seq fun w _ => bind_avoids pos name w

theorem return_avoids (hn : (p.map (·.name)).Nodup) {values : List Expr}
    (hl : Expr.AllLinked p.arity? values) (pos : Option Position) :
    Avoids (Scopes.Locals p.scopes.global depth) («return» values pos) (fun _ => True) := by
  refine Avoids.get.seq fun F _ => ?_
  cases values with
  | nil => exact .perform fun _ _ => IR.Function.counted_retVoid
  | cons first rest =>
    dsimp only
    split
    · exact .fail rfl
    · exact (expr_avoids hn first hl.1).seq fun v _ => Avoids.cast.seq fun w _ =>
        .perform fun _ _ => IR.Function.counted_retValue

theorem exprStmt_avoids (hn : (p.map (·.name)).Nodup) (e : Expr)
    (hl : (Stmt.expr e).Linked p.arity?) :
    Avoids (Scopes.Locals p.scopes.global (depth + 1)) (exprStmt e) (fun _ => True) := by
  cases e with
  | assign name ty value pos => exact assign_avoids hn hl name ty pos
  | «return» values pos => exact return_avoids hn hl pos
  | call name args pos =>
    refine (call_avoids hn hl.1 pos fun tys htys => exprs_avoids hn args hl.2 tys htys).seq ?_
    exact fun _ _ => .pure trivial
  | literal | var | binary => exact (expr_avoids hn _ hl).seq fun _ _ => .pure trivial

mutual

theorem stmt_avoids {depth : Nat} (hn : (p.map (·.name)).Nodup) (s : Stmt)
    (hl : s.Linked p.arity?) :
    Avoids (Scopes.Locals p.scopes.global (depth + 1)) (stmt s) (fun _ => True) := by
  match s with
  | .expr e => exact exprStmt_avoids hn e hl
  | .branch c =>
    rw [stmt]
    exact (conditional_avoids hn c (by simpa [Stmt.Linked] using hl)).seq fun _ _ => .pure trivial

theorem stmts_avoids {depth : Nat} (hn : (p.map (·.name)).Nodup) (ss : List Stmt)
    (hl : Stmt.AllLinked p.arity? ss) :
    Avoids (Scopes.Locals p.scopes.global (depth + 1)) (stmts ss) (fun _ => True) := by
  match ss with
  | [] => exact .pure trivial
  | s :: ss =>
    rw [stmts]
    exact (stmt_avoids hn s hl.1).seq fun _ _ => stmts_avoids hn ss hl.2

theorem conditional_avoids {depth : Nat} (hn : (p.map (·.name)).Nodup) (c : Conditional)
    (hl : c.Linked p.arity?) :
    Avoids (Scopes.Locals p.scopes.global (depth + 1)) (conditional c) (fun _ => True) := by
  match c with
  | ⟨guard, body, other, pos⟩ =>
    obtain ⟨hlg, hlb, hlo⟩ : guard.Linked p.arity? ∧ Stmt.AllLinked p.arity? body ∧
      other.Linked p.arity? := by simpa [Conditional.Linked] using hl
    rw [conditional]
    refine (expr_avoids hn guard hlg).seq fun _ _ => Avoids.cast.seq fun cond _ => ?_
    refine Avoids.get.seq fun _ _ => Avoids.addBlock.seq fun yes _ => ?_
    refine (inScope_avoids (stmts_avoids hn body hlb) yes).seq fun yesEnd _ => ?_
    refine Avoids.addBlock.seq fun next _ => ?_
    refine (otherwise_avoids hn other hlo next pos).seq fun no _ => ?_
    refine (Avoids.performAt fun _ _ => IR.Function.counted_condBr).seq fun _ _ => ?_
    exact Avoids.branchIfOpen.seq fun _ _ => Avoids.enter.seq fun _ _ => .pure trivial

theorem otherwise_avoids {depth : Nat} (hn : (p.map (·.name)).Nodup) (other : Otherwise)
    (hl : other.Linked p.arity?) (next : Nat) (pos : Option Position) :
    Avoids (Scopes.Locals p.scopes.global (depth + 1)) (otherwise next pos other)
      (fun _ => True) := by
  match other with
  | .nothing => exact .pure trivial
  | .block body =>
    rw [otherwise]
    refine Avoids.addBlock.seq fun no _ => ?_
    refine (inScope_avoids (stmts_avoids hn body (by simpa [Otherwise.Linked] using hl)) no).seq ?_
    exact fun _ _ => Avoids.branchIfOpen.seq fun _ _ => .pure trivial
  | .chain c =>
    rw [otherwise]
    refine Avoids.addBlock.seq fun guard _ => Avoids.enter.seq fun _ _ => ?_
    refine (conditional_avoids hn c (by simpa [Otherwise.Linked] using hl)).seq fun _ _ => ?_
    exact Avoids.branchIfOpen.seq fun _ _ => .pure trivial

end

/-! ## Bodies -/

theorem params_avoids {G : Scope Binding} (pos : Option Position) (ps : List (String × IR.Ty)) :
    Avoids (Scopes.Locals G (depth + 1)) (params pos ps) (fun _ => True) := by
  induction ps with
  | nil => exact .pure trivial
  | cons q ps ih => exact (bind_avoids pos q.1 _).seq fun _ _ => ih

theorem finish_avoids {I : Scopes Binding → Prop} (pos : Option Position) :
    Avoids I (finish pos) (fun _ => True) := by
  refine Avoids.get.seq fun F _ => ?_
  refine (Avoids.build fun _ _ => IR.Function.counted_isClosed).seq fun closed _ => ?_
  cases closed with
  | true => exact .pure trivial
  | false =>
    rw [if_neg (by simp)]
    split
    · exact .perform fun _ _ => IR.Function.counted_retVoid
    · exact .perform fun _ _ => IR.Function.counted_terminate

theorem body_avoids (hn : (p.map (·.name)).Nodup) {d : Declaration}
    (hl : Stmt.AllLinked p.arity? d.body) :
    Avoids (Scopes.Locals p.scopes.global (depth + 1)) (body d) (fun _ => True) := by
  refine Avoids.get.seq fun F _ => (params_avoids d.pos F.code.params).seq fun _ _ => ?_
  exact (stmts_avoids hn d.body hl).seq fun _ _ => finish_avoids d.pos

end Lower

/-! ## Programs -/

namespace Generator

variable {g g' : Generator} {e : LoweringError}

theorem isLinkFault_of_declare {d : Declaration} (h : declare d g = .error e g') :
    e.cause.isLinkFault = false := by
  unfold declare IR.Module.addFunction at h
  cases hl : g.module.lookup? d.name with
  | some i =>
    simp only [hl, EStateM.Result.error.injEq] at h
    rw [← h.1]
    rfl
  | none =>
    simp only [hl] at h
    cases hs : (splitParams [] d.params).2 with
    | some q =>
      simp only [hs, EStateM.Result.error.injEq] at h
      rw [← h.1]
      rfl
    | none => simp [hs] at h

theorem isLinkFault_of_declareAll {p : Program} (h : declareAll p g = .error e g') :
    e.cause.isLinkFault = false := by
  induction p generalizing g with
  | nil => cases h
  | cons d p ih =>
    obtain hd | ⟨_, g₁, -, h⟩ := Lower.seq_eq_error.mp h
    · exact isLinkFault_of_declare hd
    · exact ih h

/-- A body leaves the functions of the program as they are. -/
theorem define_avoids {p : Program} (hn : (p.map (·.name)).Nodup) {d : Declaration}
    (hl : Stmt.AllLinked p.arity? d.body) (hg : g.scopes.global = p.scopes.global) (id : Nat) :
    match define id d g with
    | .ok _ g' => g'.scopes.global = p.scopes.global
    | .error e _ => e.cause.isLinkFault = false := by
  have hscopes : g.scopes.reset.push.Locals p.scopes.global 1 :=
    ⟨hg, rfl, by simp [Scopes.reset, Scopes.push]⟩
  unfold define IR.Module.function
  cases g.module.functions[id]? with
  | none => rfl
  | some code =>
    have hbody := Lower.body_avoids hn hl ⟨code.entry, g.scopes.reset.push, 0⟩ hscopes
    simp only
    cases hb : Lower.body d ⟨code.entry, g.scopes.reset.push, 0⟩ with
    | ok u F =>
      simp only [hb] at hbody
      exact hbody.1.global
    | error e F => simpa [hb] using hbody

theorem isLinkFault_of_defineAll {p : Program} (hn : (p.map (·.name)).Nodup) {ds : Program}
    (hl : ∀ d ∈ ds, Stmt.AllLinked p.arity? d.body) (hg : g.scopes.global = p.scopes.global)
    {id : Nat} (h : defineAll id ds g = .error e g') : e.cause.isLinkFault = false := by
  induction ds generalizing g id with
  | nil => cases h
  | cons d ds ih =>
    obtain ⟨hd, hds⟩ := List.forall_mem_cons.mp hl
    have hdef := define_avoids hn hd hg id
    obtain hr | ⟨_, g₁, hr, h⟩ := Lower.seq_eq_error.mp h
    · simpa [hr] using hdef
    · exact ih hds (by simpa [hr] using hdef) h

end Generator

/-- A linked program has no fault that linking rules out. -/
theorem Program.isLinkFault_of_lower {p : Program} {name : String} {e : LoweringError}
    (hn : (p.map (·.name)).Nodup) (hl : p.Linked) (h : p.lower name = .error e) :
    e.cause.isLinkFault = false := by
  unfold Program.lower at h
  cases hr : Generator.run name p with
  | ok u g => simp [hr] at h
  | error e' g =>
    simp only [hr, Except.error.injEq] at h
    subst h
    obtain hd | ⟨_, g₁, hd, hr⟩ := Lower.seq_eq_error.mp hr
    · exact Generator.isLinkFault_of_declareAll hd
    · have hempty : ((Generator.empty name).module.functions.map (·.name)).Nodup := .nil
      obtain ⟨-, -, rfl⟩ := Generator.declareAll_ok hempty hd
      exact Generator.isLinkFault_of_defineAll hn hl (by simp [Generator.empty, Scopes.empty]) hr

end ProcLang

import ProcLang.Proofs.Lowering.Typing
import ProcLang.Proofs.Source.WellFormed

/-!
# Lowering succeeds on well-formed expressions

In an open block lowering an expression succeeds exactly if it is well-formed for what the names in
scope mean. The types need no rule of their own: every value that is computed has one of five types,
and each of these can be converted to each.

## Main definitions

* `Scopes.names` — what the names in scope mean.
* `Scopes.Scalar` — all variables in scope and all parameters have types of values.
* `Lower.Succeeds` — an action that does not fail.

## Main statements

* `Emits.wellFormed` — an expression that has code is well-formed.
* `Lower.expr_succeeds` — a well-formed expression can be lowered.
-/
namespace ProcLang

open IR (Instr Value Operation)

/-! ## Operations on code -/

namespace IR.Function

variable {f : Function} {b : Nat}

theorem exists_define (h : f.Open b) (ty : Ty) (op : Operation) :
    ∃ x, f.define b ty op = .ok x :=
  ⟨_, define_eq_ok.mpr ⟨h, rfl, rfl⟩⟩

theorem exists_perform (h : f.Open b) (op : Operation) : ∃ f', f.perform b op = .ok f' :=
  ⟨_, perform_eq_ok.mpr ⟨h, rfl⟩⟩

theorem exists_terminate (h : f.Open b) (t : Terminator) : ∃ f', f.terminate b t = .ok f' :=
  ⟨_, terminate_eq_ok.mpr ⟨h, rfl⟩⟩

theorem exists_compare (h : f.Open b) {l r : Value} (hty : r.ty = l.ty)
    (hs : l.ty.isScalar = true) (op : Relation) : ∃ x, f.compare b op l r = .ok x := by
  unfold compare
  rw [if_neg (by simp [hty]), if_neg]
  · exact exists_define h _ _
  · cases hl : l.ty <;> simp_all [Ty.isScalar, Ty.isVoid, Ty.isPtr]

theorem exists_arith (h : f.Open b) {l r : Value} (hty : r.ty = l.ty) {op : Arith}
    (hop : op.accepts l.ty = true) : ∃ x, f.arith b op l r = .ok x := by
  unfold arith
  rw [if_neg (by simp [hty]), if_pos hop]
  exact exists_define h _ _

/-- Values that are not compared with zero to convert them have a conversion. -/
theorem exists_between {ty ty' : Ty} (h : ty.isScalar = true) (h' : ty'.isScalar = true)
    (hne : ty ≠ ty') (hz : (if ty'.isBool then zero? ty else none) = none) :
    ∃ op, Conversion.between? ty ty' = some op := by
  cases ty <;> cases h <;> cases ty' <;> cases h' <;>
    simp_all [Conversion.between?, zero?, Ty.isBool, Ty.isInt, Ty.isFloat]

/-- Every value can be converted to every type of values. -/
theorem exists_cast (h : f.Open b) {v : Value} {ty : Ty} (hv : v.ty.isScalar = true)
    (hty : ty.isScalar = true) : ∃ x, f.cast b v ty = .ok x := by
  unfold cast
  split
  · exact ⟨_, rfl⟩
  next hne =>
  split
  · exact ⟨_, rfl⟩
  · split
    next zero hz =>
      obtain ⟨-, hz⟩ := Option.ite_none_right_eq_some.mp hz
      exact exists_compare h (@zero?_typed ⟨[], .void, []⟩ .empty _ _ hz).1 hv _
    next hz =>
      obtain ⟨op, hop⟩ := exists_between hv hty hne hz
      rw [hop]
      exact exists_define h _ _

theorem argumentError?_eq_none {tys : List Ty} {args : List Value}
    (h : args.map (·.ty) = tys) (function : String) (index : Nat) :
    argumentError? function index tys args = none := by
  induction args generalizing tys index with
  | nil =>
    subst h
    rfl
  | cons arg args ih =>
    subst h
    simpa [argumentError?] using ih rfl (index + 1)

theorem exists_call (h : f.Open b) {sig : Signature} {args : List Value}
    (hargs : args.map (·.ty) = sig.params) :
    ∃ v f', f.call b sig args = .ok (v, f') ∧ (v = none ↔ sig.ret.isVoid = true) := by
  have hlen : sig.params.length = args.length := by rw [← hargs, List.length_map]
  unfold call
  rw [if_neg (by simpa using hlen), argumentError?_eq_none hargs]
  cases hv : sig.ret.isVoid with
  | true =>
    obtain ⟨f', hf'⟩ := exists_perform h (.call sig.name sig.ret args)
    exact ⟨none, f', by simp [hf'], by simp⟩
  | false =>
    obtain ⟨⟨v, f'⟩, hf'⟩ := exists_define h sig.ret (.call sig.name sig.ret args)
    exact ⟨some v, f', by simp [hf'], by simp⟩

theorem exists_block {b : Nat} (h : b < f.blocks.length) : ∃ block, f.block b = .ok block :=
  ⟨f.blocks[b], block_eq_ok.mpr (List.getElem?_eq_getElem h)⟩

theorem exists_condBr (h : f.Open b) {cond : Value} (hc : cond.ty = .i1) {yes no : Nat}
    (hy : yes < f.blocks.length) (hn : no < f.blocks.length) :
    ∃ f', f.condBr b cond yes no = .ok f' := by
  obtain ⟨yes', hy⟩ := exists_block hy
  obtain ⟨no', hn⟩ := exists_block hn
  unfold condBr
  rw [if_pos (by simp [hc, Ty.isBool]), hy, hn]
  exact exists_terminate h _

theorem exists_br (h : f.Open b) {target : Nat} (ht : target < f.blocks.length) :
    ∃ f', f.br b target = .ok f' := by
  obtain ⟨block, hb⟩ := exists_block ht
  unfold br
  rw [hb]
  exact exists_terminate h _

end IR.Function

/-- The common type of two operands suits the operator. -/
theorem Operator.exists_emit (op : Operator) {f : IR.Function} {b : Nat} (h : f.Open b)
    {l r : IR.Ty} {v w : Value} (hl : l.isScalar = true) (hr : r.isScalar = true)
    (hv : v.ty = op.operandTy l r) (hw : w.ty = op.operandTy l r) :
    ∃ x, op.emit v w f b = .ok x := by
  have hty : w.ty = v.ty := hw.trans hv.symm
  have hs : v.ty.isScalar = true := hv ▸ op.isScalar_operandTy hl hr
  cases op with
  | lt | gt | eq => exact IR.Function.exists_compare h hty hs _
  | add | sub | mul | fdiv | idiv =>
    refine IR.Function.exists_arith h hty ?_
    rw [hv]
    cases l <;> cases hl <;> cases r <;> cases hr <;> rfl

/-! ## Scopes -/

/-- What a binding tells the static rules. -/
def Binding.meaning : Binding → Meaning
  | .function sig => .function sig.params.length sig.ret.isVoid
  | .slot _ => .variable

/-- A binding whose types belong to values. -/
def Binding.Scalar : Binding → Prop
  | .function sig => sig.Scalar
  | .slot storage => ∃ ty, storage.ty = .ptr ty ∧ ty.isScalar = true

namespace Scopes

/-- What the names in scope mean. -/
def names (S : Scopes Binding) : Names := fun name => (S.lookup? name).map Binding.meaning

/-- All types of what is in scope belong to values. -/
def Scalar (S : Scopes Binding) : Prop := ∀ name b, S.lookup? name = some b → b.Scalar

variable {S : Scopes Binding} {name : String}

@[simp] theorem names_push (S : Scopes Binding) : S.push.names = S.names := by
  funext name
  simp [names]

theorem names_insert (S : Scopes Binding) (name : String) (v : Value) :
    (S.insert name (.slot v)).names = S.names.bind name := by
  funext other
  simp only [names, lookup?_insert, Names.bind]
  split <;> rfl

theorem Scalar.push (h : S.Scalar) : S.push.Scalar := by
  intro name b hb
  exact h name b (by simpa using hb)

theorem Scalar.insert (h : S.Scalar) {v : Value} {ty : IR.Ty} (hv : v.ty = .ptr ty)
    (hty : ty.isScalar = true) (name : String) : (S.insert name (.slot v)).Scalar := by
  intro other b hb
  rw [lookup?_insert] at hb
  split at hb
  · cases hb
    exact ⟨ty, hv, hty⟩
  · exact h other b hb

theorem names_eq_variable : S.names name = some .variable ↔
    ∃ v, S.lookup? name = some (.slot v) := by
  cases h : S.lookup? name with
  | none => simp [names, h]
  | some b => cases b <;> simp [names, h, Binding.meaning]

theorem names_eq_function {n : Nat} {void : Bool} : S.names name = some (.function n void) ↔
    ∃ sig, S.lookup? name = some (.function sig) ∧ sig.params.length = n ∧
      sig.ret.isVoid = void := by
  cases h : S.lookup? name with
  | none => simp [names, h]
  | some b => cases b <;> simp [names, h, Binding.meaning]

end Scopes

/-! ## Expressions -/

mutual

theorem Emits.wellFormed {S : Scopes Binding} {n n' : Nat} {e : Expr} {is : List Instr} {v : Value}
    (h : Emits S n e is v n') : e.WellFormed S.names := by
  cases h with
  | literal => trivial
  | var hs _ => exact Scopes.names_eq_variable.mpr ⟨_, hs⟩
  | binary hl hr => exact ⟨hl.wellFormed, hr.wellFormed⟩
  | call hs hret ha =>
    obtain ⟨hlen, hargs⟩ := ha.wellFormed
    exact ⟨Scopes.names_eq_function.mpr ⟨_, hs, hlen, hret⟩, hargs⟩

theorem EmitsAll.wellFormed {S : Scopes Binding} {n n' : Nat} {es : List Expr} {tys : List IR.Ty}
    {is : List Instr} {vs : List Value} (h : EmitsAll S n es tys is vs n') :
    tys.length = es.length ∧ Expr.AllWellFormed S.names es := by
  cases h with
  | nil => exact ⟨rfl, trivial⟩
  | cons he _ hes =>
    obtain ⟨hlen, hwf⟩ := hes.wellFormed
    exact ⟨congrArg (· + 1) hlen, he.wellFormed, hwf⟩

end

theorem Emits.isScalar {S : Scopes Binding} (hS : S.Scalar) {n n' : Nat} {e : Expr}
    {is : List Instr} {v : Value} (h : Emits S n e is v n') : v.ty.isScalar = true := by
  cases h with
  | literal _ c => cases c <;> rfl
  | var hs hty =>
    obtain ⟨ty, hptr, hscalar⟩ := hS _ _ hs
    cases hty.symm.trans hptr
    exact hscalar
  | binary hl hr hty hcl =>
    rw [hcl.ty_eq, ← hty]
    exact Operator.isScalar_resultTy _ (Operator.isScalar_operandTy _ (hl.isScalar hS)
      (hr.isScalar hS))
  | call hs hret => exact (hS _ _ hs).2.resolve_left (by simp [hret])

theorem EmitsAll.types {S : Scopes Binding} {n n' : Nat} {es : List Expr} {tys : List IR.Ty}
    {is : List Instr} {vs : List Value} (h : EmitsAll S n es tys is vs n') :
    vs.map (·.ty) = tys := by
  match h with
  | .nil _ => rfl
  | .cons _ hc hes => rw [List.map_cons, hc.ty_eq, hes.types]

/-- Only literals need no instructions. -/
theorem Emits.literal_of_nil {S : Scopes Binding} {n n' : Nat} {e : Expr} {v : Value}
    (h : Emits S n e [] v n') : ∃ c pos, e = .literal c pos := by
  generalize his : ([] : List Instr) = is at h
  cases h with
  | literal _ c pos => exact ⟨c, pos, rfl⟩
  | var | binary | call => simp at his

namespace Frame.Adds

variable {F F' : Frame} {is : List Instr}

theorem opened (h : F.Adds is F') (ho : F.Open) : F'.Open := by
  rw [h.1]
  exact IR.Function.open_emit.mpr ho

theorem ret (h : F.Adds is F') : F'.code.ret = F.code.ret := by
  rw [h.1]
  rfl

end Frame.Adds

namespace Lower

variable {α β : Type} {F : Frame}

/-- An action that does not fail. -/
def Succeeds (act : Lower α) (F : Frame) : Prop := ∃ a F', act F = .ok a F'

namespace Succeeds

theorem seq {x : Lower α} {k : α → Lower β} (hx : Succeeds x F)
    (hk : ∀ a F', x F = .ok a F' → Succeeds (k a) F') : Succeeds (x >>= k) F := by
  obtain ⟨a, F₁, h₁⟩ := hx
  obtain ⟨b, F₂, h₂⟩ := hk a F₁ h₁
  exact ⟨b, F₂, seq_eq_ok.mpr ⟨a, F₁, h₁, h₂⟩⟩

theorem pure (a : α) : Succeeds (pure a) F := ⟨a, F, rfl⟩

theorem build {pos : Option Position}
    {op : IR.Function → Nat → Except IR.Error (α × IR.Function)}
    (h : ∃ x, op F.code F.block = .ok x) : Succeeds (build pos op) F := by
  obtain ⟨⟨a, code⟩, h⟩ := h
  exact ⟨a, _, build_eq_ok.mpr ⟨code, h, rfl⟩⟩

theorem performAt {pos : Option Position} {b : Nat}
    {op : IR.Function → Nat → Except IR.Error IR.Function} (h : ∃ code, op F.code b = .ok code) :
    Succeeds (performAt pos b op) F := by
  obtain ⟨code, h⟩ := h
  exact ⟨(), _, performAt_eq_ok.mpr ⟨code, h, rfl⟩⟩

theorem perform {pos : Option Position} {op : IR.Function → Nat → Except IR.Error IR.Function}
    (h : ∃ code, op F.code F.block = .ok code) : Succeeds (perform pos op) F := by
  obtain ⟨code, h⟩ := h
  exact ⟨(), _, perform_eq_ok.mpr ⟨code, h, rfl⟩⟩

theorem cast {pos : Option Position} {v : Value} {ty : IR.Ty} (ho : F.Open)
    (hv : v.ty.isScalar = true) (hty : ty.isScalar = true) : Succeeds (cast pos v ty) F :=
  build (IR.Function.exists_cast ho hv hty)

theorem binary {op : Operator} {l r : Value} {pos : Option Position} (ho : F.Open)
    (hl : l.ty.isScalar = true) (hr : r.ty.isScalar = true) : Succeeds (binary op l r pos) F := by
  have hty := op.isScalar_operandTy hl hr
  refine seq (cast ho hl hty) fun v F₁ h₁ => ?_
  obtain ⟨_, hc₁, ha₁⟩ := cast_adds h₁
  refine seq (cast (ha₁.opened ho) hr hty) fun w F₂ h₂ => ?_
  obtain ⟨_, hc₂, ha₂⟩ := cast_adds h₂
  exact build (op.exists_emit (ha₂.opened (ha₁.opened ho)) hl hr hc₁.ty_eq hc₂.ty_eq)

theorem readVar {name : String} {pos : Option Position} (ho : F.Open) (hS : F.scopes.Scalar)
    (h : F.scopes.names name = some .variable) : Succeeds (readVar name pos) F := by
  obtain ⟨v, hv⟩ := Scopes.names_eq_variable.mp h
  obtain ⟨ty, hty, -⟩ := hS name _ hv
  refine seq ⟨_, F, lookup?_eq_ok.mpr ⟨hv, rfl⟩⟩ fun b F' hb => ?_
  obtain ⟨rfl, rfl⟩ := lookup?_eq_ok.mp hb
  rw [hv]
  refine build ?_
  simp only [IR.Function.load, hty, IR.Ty.target?]
  exact IR.Function.exists_define ho _ _

end Succeeds

/-- A call, given its arguments; it has a value unless the function returns nothing. -/
theorem exists_call {name : String} {count : Nat} (pos : Option Position) {void : Bool}
    {arguments : List IR.Ty → Lower (List Value)}
    (hname : F.scopes.names name = some (.function count void))
    (hargs : ∀ sig, F.scopes.lookup? name = some (.function sig) → sig.params.length = count →
      ∃ vs F', arguments sig.params F = .ok vs F' ∧ F'.Open ∧ vs.map (·.ty) = sig.params) :
    ∃ v F', call name count pos arguments F = .ok v F' ∧ (v = none ↔ void = true) := by
  obtain ⟨sig, hsig, hcount, rfl⟩ := Scopes.names_eq_function.mp hname
  obtain ⟨vs, F₁, hvs, ho, htys⟩ := hargs sig hsig hcount
  obtain ⟨v, code, hv, hvoid⟩ := IR.Function.exists_call ho htys
  refine ⟨v, { F₁ with code := code }, ?_, hvoid⟩
  refine seq_eq_ok.mpr ⟨sig, F, callee_eq_ok.mpr ⟨hsig, hcount, rfl⟩, ?_⟩
  exact seq_eq_ok.mpr ⟨vs, F₁, hvs, build_eq_ok.mpr ⟨code, hv, rfl⟩⟩

mutual

theorem expr_succeeds (e : Expr) {F : Frame} (ho : F.Open) (hS : F.scopes.Scalar)
    (h : e.WellFormed F.scopes.names) : Succeeds (expr e) F := by
  match e with
  | .literal c pos => exact .pure _
  | .var name pos =>
    rw [expr]
    exact .readVar ho hS h
  | .binary op l r pos =>
    rw [expr]
    refine .seq (expr_succeeds l ho hS h.1) fun v F₁ h₁ => ?_
    obtain ⟨_, he₁, ha₁⟩ := expr_adds l h₁
    have hS₁ : F₁.scopes.Scalar := ha₁.scopes ▸ hS
    refine .seq (expr_succeeds r (ha₁.opened ho) hS₁ (ha₁.scopes ▸ h.2)) fun w F₂ h₂ => ?_
    obtain ⟨_, he₂, ha₂⟩ := expr_adds r h₂
    exact .binary (ha₂.opened (ha₁.opened ho)) (he₁.isScalar hS) (he₂.isScalar hS₁)
  | .call name args pos =>
    obtain ⟨v, F', hcall, hv⟩ := exists_call pos h.1 fun sig hsig hlen =>
      exprs_succeeds args ho hS h.2 hlen (hS name _ hsig).1
    rw [expr]
    refine .seq ⟨v, F', hcall⟩ fun v' F'' hcall' => ?_
    cases hcall.symm.trans hcall'
    cases v with
    | some value => exact .pure value
    | none => simp at hv
  | .return _ _ | .assign _ _ _ _ => exact h.elim

theorem exprs_succeeds (es : List Expr) {tys : List IR.Ty} {F : Frame} (ho : F.Open)
    (hS : F.scopes.Scalar) (h : Expr.AllWellFormed F.scopes.names es)
    (hlen : tys.length = es.length) (htys : ∀ ty ∈ tys, ty.isScalar = true) :
    ∃ vs F', exprs es tys F = .ok vs F' ∧ F'.Open ∧ vs.map (·.ty) = tys := by
  have hok : Succeeds (exprs es tys) F := by
    match es, tys with
    | [], [] => exact .pure []
    | e :: es, ty :: tys =>
      obtain ⟨hty, htys⟩ := List.forall_mem_cons.mp htys
      rw [exprs]
      refine .seq (expr_succeeds e ho hS h.1) fun v F₁ h₁ => ?_
      obtain ⟨_, he₁, ha₁⟩ := expr_adds e h₁
      refine .seq (.cast (ha₁.opened ho) (he₁.isScalar hS) hty) fun w F₂ h₂ => ?_
      obtain ⟨_, -, ha₂⟩ := cast_adds h₂
      have hscopes : F₂.scopes = F.scopes := ha₂.scopes.trans ha₁.scopes
      obtain ⟨vs, F₃, h₃, -⟩ := exprs_succeeds es (ha₂.opened (ha₁.opened ho)) (hscopes ▸ hS)
        (hscopes ▸ h.2) (by simpa using hlen) htys
      exact .seq ⟨vs, F₃, h₃⟩ fun _ _ _ => .pure _
  obtain ⟨vs, F', hvs⟩ := hok
  obtain ⟨_, hes, ha⟩ := exprs_adds es tys hlen hvs
  exact ⟨vs, F', hvs, ha.opened ho, hes.types⟩

end

end Lower

end ProcLang

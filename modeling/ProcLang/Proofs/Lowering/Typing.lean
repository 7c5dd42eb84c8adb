import ProcLang.Proofs.IR.Typing
import ProcLang.Proofs.Lowering.Functions

/-!
# Lowered code is typed

If every name in scope means a function of the module or a variable whose storage holds a value,
then the code of expressions and statements is typed. Opening a scope for each case of a conditional
keeps the variables of one case out of the other and out of what follows.

## Main definitions

* `Scopes.Typed` — what names mean is known.
* `Extends` — instructions after which more is known.

## Main statements

* `Emits.typed`, `Lowers.typed` — expressions and statements.
* `Declaration.LowersTo.typed` — functions.
-/
namespace ProcLang

open IR (Instr Value Operation Flow Env Ctx Operand Ty.isScalar)

/-- All types of a signature belong to values; the result may be missing. -/
def IR.Signature.Scalar (sig : IR.Signature) : Prop :=
  (∀ ty ∈ sig.params, ty.isScalar = true) ∧ (sig.ret.isVoid = true ∨ sig.ret.isScalar = true)

/-- What a name means is known. -/
inductive Binding.Typed (E : Env) (Δ : Ctx) : Binding → Prop where
  | function {sig : IR.Signature} (h : sig ∈ E.sigs) (hs : sig.Scalar) : Typed E Δ (.function sig)
  | slot {k : Nat} {ty : IR.Ty} (h : (k, ty) ∈ Δ.slots) (hs : ty.isScalar = true) :
      Typed E Δ (.slot ⟨.temp k, .ptr ty⟩)

/-- What names mean is known. -/
def Scopes.Typed (E : Env) (Δ : Ctx) (S : Scopes Binding) : Prop :=
  ∀ name b, S.lookup? name = some b → b.Typed E Δ

namespace Scopes.Typed

variable {E : Env} {Δ Δ' : Ctx} {S : Scopes Binding}

theorem mono (hsub : Δ ⊆ Δ') (h : S.Typed E Δ) : S.Typed E Δ' := by
  intro name b hb
  cases h name b hb with
  | function hsig hs => exact .function hsig hs
  | slot hk hs => exact .slot (hsub.2 hk) hs

theorem push (h : S.Typed E Δ) : S.push.Typed E Δ := by
  intro name b hb
  exact h name b (by simpa using hb)

theorem insert (h : S.Typed E Δ) {name : String} {b : Binding} (hb : b.Typed E Δ) :
    (S.insert name b).Typed E Δ := by
  intro other b' hb'
  rw [Scopes.lookup?_insert] at hb'
  split at hb'
  · cases hb'
    exact hb
  · exact h other b' hb'

end Scopes.Typed

/-- Instructions that lead from what `Δ` knows to what `Δ'` knows. -/
structure Extends (E : Env) (n : Nat) (Δ : Ctx) (is : List Instr) (n' : Nat) (Δ' : Ctx) : Prop where
  subset : Δ ⊆ Δ'
  typed : ∀ {g n''}, g.Typed E n' Δ' n'' → (Flow.emits is g).Typed E n Δ n''

namespace Extends

variable {E : Env} {n n₁ n₂ : Nat} {Δ Δ₁ Δ₂ : Ctx} {is is' : List Instr}

theorem refl (E : Env) (n : Nat) (Δ : Ctx) : Extends E n Δ [] n Δ :=
  ⟨.refl Δ, fun h => h⟩

theorem trans (h : Extends E n Δ is n₁ Δ₁) (h' : Extends E n₁ Δ₁ is' n₂ Δ₂) :
    Extends E n Δ (is ++ is') n₂ Δ₂ := by
  refine ⟨Ctx.Subset.trans h.subset h'.subset, fun hg => ?_⟩
  rw [Flow.emits_append]
  exact h.typed (h'.typed hg)

theorem define {op : Operation} {ty : IR.Ty} (hop : op.Typed E Δ ty) (hs : ty.isScalar = true) :
    Extends E n Δ [⟨some ⟨.temp n, ty⟩, op⟩] (n + 1) (Δ.define n ty) :=
  ⟨Δ.subset_define n ty, .define hop hs⟩

theorem perform {op : Operation} {ty : IR.Ty} (hop : op.Typed E Δ ty) (hv : ty.isVoid = true) :
    Extends E n Δ [⟨none, op⟩] n Δ :=
  ⟨.refl Δ, .perform hop hv⟩

end Extends

/-! ## Expressions -/

namespace Operator

theorem isScalar_operandTy (op : Operator) {l r : IR.Ty} (hl : l.isScalar = true)
    (hr : r.isScalar = true) : (op.operandTy l r).isScalar = true := by
  cases l <;> cases hl <;> cases r <;> cases hr <;> cases op <;> rfl

theorem isScalar_resultTy (op : Operator) {ty : IR.Ty} (h : ty.isScalar = true) :
    (op.resultTy ty).isScalar = true := by
  cases op <;> first | exact h | rfl

/-- The common type of two operands suits the operator. -/
theorem typed_operation (op : Operator) {E : Env} {Δ : Ctx} {l r : IR.Ty} {v w : Value}
    (hl : l.isScalar = true) (hr : r.isScalar = true) (hv : Operand E Δ v) (hw : Operand E Δ w)
    (hvt : v.ty = op.operandTy l r) (hwt : w.ty = op.operandTy l r) :
    (op.operation v w).Typed E Δ (op.resultTy v.ty) := by
  have hty : w.ty = v.ty := hwt.trans hvt.symm
  have hs : v.ty.isScalar = true := hvt ▸ isScalar_operandTy op hl hr
  cases op with
  | lt | gt | eq => exact .compare hv hw hty hs
  | add | sub | mul | fdiv | idiv =>
    refine .arith hv hw hty ?_
    rw [hvt]
    cases l <;> cases hl <;> cases r <;> cases hr <;> rfl

end Operator

theorem IR.Function.zero?_typed {E : Env} {Δ : Ctx} {ty : IR.Ty} {zero : Value}
    (h : IR.Function.zero? ty = some zero) : zero.ty = ty ∧ Operand E Δ zero := by
  have hzero : Double.zero.roundSingle = Double.zero := by decide +kernel
  cases ty <;> simp [zero?, IR.Ty.isInt, IR.Ty.isFloat] at h <;> subst h
  · exact ⟨rfl, .const ⟨by decide, by decide⟩⟩
  · exact ⟨rfl, .const trivial⟩
  · exact ⟨rfl, .const hzero⟩
  · exact ⟨rfl, .const trivial⟩

theorem Casts.typed {E : Env} {Δ : Ctx} {n n' : Nat} {v w : Value} {ty : IR.Ty} {is : List Instr}
    (h : Casts n v ty is w n') (hv : Operand E Δ v) (hs : v.ty.isScalar = true)
    (hty : ty.isScalar = true) : ∃ Δ', Extends E n Δ is n' Δ' ∧ Operand E Δ' w := by
  cases h with
  | same => exact ⟨Δ, .refl .., hv⟩
  | folded _ fold =>
    refine ⟨Δ, .refl .., ?_⟩
    obtain ⟨c, -, ⟨rfl, rfl⟩ | ⟨hint, rfl⟩ | ⟨hfloat, rfl⟩⟩ := IR.Value.fold_eq_some fold
    · exact .const trivial
    · exact .const (IR.Datum.canonical_narrowInt hint _)
    · exact .const (IR.Datum.canonical_narrowFloat hfloat _)
  | truth _ _ hb hz =>
    subst hb
    obtain ⟨hzt, hzero⟩ := IR.Function.zero?_typed hz
    exact ⟨_, .define (.compare hv hzero hzt hs) hty, .temp List.mem_cons_self⟩
  | converted _ _ hop => exact ⟨_, .define (.cast hv hop) hty, .temp List.mem_cons_self⟩

mutual

/-- The code of an expression is typed. -/
theorem Emits.typed {E : Env} {Δ : Ctx} {S : Scopes Binding} {n n' : Nat} {e : Expr}
    {is : List Instr} {v : Value} (h : Emits S n e is v n') (hS : S.Typed E Δ) :
    ∃ Δ', Extends E n Δ is n' Δ' ∧ Operand E Δ' v ∧ v.ty.isScalar = true := by
  cases h with
  | literal _ c pos =>
    refine ⟨Δ, .refl .., ?_⟩
    cases c <;> exact ⟨.const trivial, rfl⟩
  | var hs hty =>
    cases hS _ _ hs with
    | slot hk hscalar =>
      cases hty
      exact ⟨_, .define (.load hk) hscalar, .temp List.mem_cons_self, hscalar⟩
  | binary hl hr hty hcl hcr =>
    obtain ⟨Δ₁, hx₁, hv₁, hs₁⟩ := hl.typed hS
    obtain ⟨Δ₂, hx₂, hv₂, hs₂⟩ := hr.typed (hS.mono hx₁.subset)
    subst hty
    obtain ⟨Δ₃, hx₃, hw₁⟩ := hcl.typed (hv₁.mono hx₂.subset) hs₁
      (Operator.isScalar_operandTy _ hs₁ hs₂)
    obtain ⟨Δ₄, hx₄, hw₂⟩ := hcr.typed (hv₂.mono hx₃.subset) hs₂
      (Operator.isScalar_operandTy _ hs₁ hs₂)
    have hop := Operator.typed_operation _ hs₁ hs₂ (hw₁.mono hx₄.subset) hw₂ hcl.ty_eq hcr.ty_eq
    have hs := hcl.ty_eq ▸ Operator.isScalar_operandTy _ hs₁ hs₂
    exact ⟨_, (((hx₁.trans hx₂).trans hx₃).trans hx₄).trans
      (.define hop (Operator.isScalar_resultTy _ hs)), .temp List.mem_cons_self,
      Operator.isScalar_resultTy _ hs⟩
  | call hs hret ha =>
    cases hS _ _ hs with
    | function hsig hscalar =>
      obtain ⟨Δ₁, hx, hvs, htys⟩ := ha.typed hS hscalar.1
      have hres := hscalar.2.resolve_left (by simp [hret])
      exact ⟨_, hx.trans (.define (.call hsig hvs htys) hres), .temp List.mem_cons_self, hres⟩

theorem EmitsAll.typed {E : Env} {Δ : Ctx} {S : Scopes Binding} {n n' : Nat} {es : List Expr}
    {tys : List IR.Ty} {is : List Instr} {vs : List Value} (h : EmitsAll S n es tys is vs n')
    (hS : S.Typed E Δ) (hs : ∀ ty ∈ tys, ty.isScalar = true) :
    ∃ Δ', Extends E n Δ is n' Δ' ∧ (∀ v ∈ vs, Operand E Δ' v) ∧ vs.map (·.ty) = tys := by
  cases h with
  | nil => exact ⟨Δ, .refl .., by simp, rfl⟩
  | cons he hc hes =>
    obtain ⟨hty, htys⟩ := List.forall_mem_cons.mp hs
    obtain ⟨Δ₁, hx₁, hv, hvs⟩ := he.typed hS
    obtain ⟨Δ₂, hx₂, hw⟩ := hc.typed hv hvs hty
    obtain ⟨Δ₃, hx₃, hws, hmap⟩ := hes.typed (hS.mono (hx₁.trans hx₂).subset) htys
    refine ⟨Δ₃, (hx₁.trans hx₂).trans hx₃, List.forall_mem_cons.mpr ⟨hw.mono hx₃.subset, hws⟩, ?_⟩
    rw [List.map_cons, hc.ty_eq, hmap]

end

/-! ## Statements -/

theorem Ty.isScalar_lower (ty : Ty) : ty.lower.isScalar = true := by
  cases ty <;> rfl

theorem isScalar_elim {given : IR.Ty} (h : given.isScalar = true) (ty : Option Ty) :
    (ty.elim given Ty.lower).isScalar = true := by
  cases ty with
  | none => exact h
  | some ty => exact ty.isScalar_lower

/-- The code of statements is typed. -/
theorem Lowers.typed {ret : IR.Ty} {S S' : Scopes Binding} {n n' : Nat} {ss : List Stmt} {g : Flow}
    (h : Lowers ret S n ss g S' n') {E : Env} {Δ : Ctx} (hret : ret = E.ret)
    (hscalar : ret.isVoid = true ∨ ret.isScalar = true) (hS : S.Typed E Δ) : g.Typed E n Δ n' := by
  induction h generalizing Δ with
  | nil S n => exact .fall n Δ
  | value he _ ih =>
    obtain ⟨Δ₁, hx, -, -⟩ := he.typed hS
    exact hx.typed (ih (hS.mono hx.subset))
  | voidCall hs hvoid ha _ ih =>
    cases hS _ _ hs with
    | function hsig hsc =>
      obtain ⟨Δ₁, hx, hvs, htys⟩ := ha.typed hS hsc.1
      have hx := hx.trans (.perform (.call hsig hvs htys) hvoid)
      exact hx.typed (ih (hS.mono hx.subset))
  | assign he hc _ ih =>
    obtain ⟨Δ₁, hx₁, hv, hs⟩ := he.typed hS
    obtain ⟨Δ₂, hx₂, hw⟩ := hc.typed hv hs (isScalar_elim hs _)
    have hws := hc.ty_eq ▸ isScalar_elim hs _
    have hx := hx₁.trans hx₂
    refine hx.typed (.bind hw hws (ih ?_))
    exact ((hS.mono hx.subset).mono (Δ₂.subset_bind _ _)).insert (.slot List.mem_cons_self hws)
  | returnNothing hvoid => exact .retNothing (hret ▸ hvoid)
  | returnValue hvoid he hc =>
    obtain ⟨Δ₁, hx₁, hv, hs⟩ := he.typed hS
    have hrs := hscalar.resolve_left (by simp [hvoid])
    obtain ⟨Δ₂, hx₂, hw⟩ := hc.typed hv hs hrs
    exact (hx₁.trans hx₂).typed (.ret hw (hc.ty_eq.trans hret) (hc.ty_eq ▸ hrs))
  | when he hc _ _ ihy ih =>
    obtain ⟨Δ₁, hx₁, hv, hs⟩ := he.typed hS
    obtain ⟨Δ₂, hx₂, hw⟩ := hc.typed hv hs rfl
    have hx := hx₁.trans hx₂
    have hS₂ := hS.mono hx.subset
    exact hx.typed (.when hw hc.ty_eq (ihy hS₂.push) (ih hS₂))
  | either he hc _ _ _ ihy ihn ih =>
    obtain ⟨Δ₁, hx₁, hv, hs⟩ := he.typed hS
    obtain ⟨Δ₂, hx₂, hw⟩ := hc.typed hv hs rfl
    have hx := hx₁.trans hx₂
    have hS₂ := hS.mono hx.subset
    exact hx.typed (.either hw hc.ty_eq (ihy hS₂.push) (ihn hS₂.push) (ih hS₂))
  | chain he hc _ _ _ ihy ihn ih =>
    obtain ⟨Δ₁, hx₁, hv, hs⟩ := he.typed hS
    obtain ⟨Δ₂, hx₂, hw⟩ := hc.typed hv hs rfl
    have hx := hx₁.trans hx₂
    have hS₂ := hS.mono hx.subset
    exact hx.typed (.either hw hc.ty_eq (ihy hS₂.push) (ihn hS₂) (ih hS₂))

/-! ## Functions -/

theorem IR.Flow.Typed.bindParams {E : Env} {n n' : Nat} {ps : List (String × IR.Ty)} {g : Flow}
    {S : Scopes Binding} {Δ : Ctx} (hps : ∀ p ∈ ps, p ∈ E.params ∧ p.2.isScalar = true)
    (hS : S.Typed E Δ)
    (hg : ∀ {Δ'}, (S.bindParams n ps).Typed E Δ' → g.Typed E (n + ps.length) Δ' n') :
    (Flow.bindParams n ps g).Typed E n Δ n' := by
  induction ps generalizing n S Δ with
  | nil => exact hg hS
  | cons p ps ih =>
    obtain ⟨⟨hp, hs⟩, hps⟩ := List.forall_mem_cons.mp hps
    have hS₁ : (S.insert p.1 (.slot (Flow.slot n ⟨.param p.1, p.2⟩))).Typed E (Δ.bind n p.2) :=
      (hS.mono (Δ.subset_bind _ _)).insert (.slot List.mem_cons_self hs)
    have hn : n + (p :: ps).length = n + 1 + ps.length := by simp; omega
    rw [hn] at hg
    exact .bind (.param hp) hs (ih hps hS₁ hg)

namespace Declaration

theorem scalar_ret (d : Declaration) : d.ret.isVoid = true ∨ d.ret.isScalar = true := by
  unfold Declaration.ret
  split
  · exact .inl rfl
  · exact .inr (Ty.isScalar_lower _)

theorem scalar_header (d : Declaration) : d.header.signature.Scalar := by
  refine ⟨?_, d.scalar_ret⟩
  intro ty hty
  obtain ⟨p, hp, rfl⟩ := List.mem_map.mp hty
  obtain ⟨q, -, rfl⟩ := List.mem_map.mp hp
  exact q.ty.isScalar_lower

/-- What the body of a declaration may refer to in a module with the functions of `p`. -/
def env (d : Declaration) (p : Program) : Env :=
  ⟨d.irParams, d.ret, p.map (·.header.signature)⟩

end Declaration

theorem Program.typed_scopes (p : Program) (d : Declaration) :
    p.scopes.Typed (d.env p) .empty := by
  intro name b hb
  obtain ⟨d', hd', -, rfl⟩ := Program.lookup?_scopes hb
  exact .function (List.mem_map_of_mem hd') d'.scalar_header

/-- The flow of a declaration is typed. -/
theorem Declaration.HasFlow.typed {p : Program} {d : Declaration} {g : Flow}
    (h : d.HasFlow p.scopes g) : g.Typed (d.env p) 0 .empty g.defs := by
  obtain ⟨-, body, S', n', hbody, rfl⟩ := h
  have hps : ∀ q ∈ d.irParams, q ∈ (d.env p).params ∧ q.2.isScalar = true := by
    intro q hq
    obtain ⟨q', -, rfl⟩ := List.mem_map.mp hq
    exact ⟨hq, q'.ty.isScalar_lower⟩
  have hlen : 0 + d.irParams.length = d.params.length := by simp [irParams]
  have htyped : (Flow.bindParams 0 d.irParams body).Typed (d.env p) 0 .empty n' := by
    refine .bindParams hps (p.typed_scopes d).push fun hS => ?_
    rw [hlen]
    exact hbody.typed rfl d.scalar_ret hS
  have hcount := htyped.count
  rw [Nat.zero_add] at hcount
  rw [← hcount]
  exact htyped

/-- A lowered function is the layout of a typed flow. -/
theorem Declaration.LowersTo.typed {p : Program} {d : Declaration} {f : IR.Function}
    (h : d.LowersTo p.scopes f) :
    ∃ g, f = .ofFlow d.name d.ret d.irParams g ∧ g.Typed (d.env p) 0 .empty g.defs := by
  obtain ⟨g, hg, rfl⟩ := h
  exact ⟨g, rfl, hg.typed⟩

end ProcLang

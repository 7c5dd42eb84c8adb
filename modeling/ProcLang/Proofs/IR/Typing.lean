import ProcLang.IR.Run
import ProcLang.Proofs.IR.Flow
import ProcLang.Proofs.Number.Single

/-!
# Typed flows

A flow is typed if every operand is known where it stands and has the type that the operation needs.
What is known at the start of a conditional is known in both of its cases and behind it; what a case
defines is known in that case only. Pointers to storage are kept apart from other values: they are
only there once a value has been put into the storage.

## Main definitions

* `Datum.Canonical` — the values that a type has at run time.
* `Env`, `Ctx` — what a function refers to, and the values that are known at a place in it.
* `Operand`, `Operation.Typed`, `Flow.Typed` — typing of operands, operations and flows.
-/
namespace ProcLang.IR

/-- The types of values that are computed with. -/
def Ty.isScalar : Ty → Bool
  | .i1 | .i32 | .i64 | .float | .double => true
  | .void | .ptr _ => false

/-- The values that a type has at run time: 32-bit integers are in range and floats of single
precision are rounded. Pointers have to be judged with the storage they point to. -/
def Datum.Canonical (ty : Ty) (d : Datum) : Prop :=
  match ty, d with
  | .i1, .bool _ => True
  | .i32, .int v => Int32.minValue.toInt ≤ v.toInt ∧ v.toInt ≤ Int32.maxValue.toInt
  | .i64, .int _ => True
  | .float, .float x => x.roundSingle = x
  | .double, .float _ => True
  | _, _ => False

/-- What the body of a function may refer to besides its own values. -/
structure Env where
  params : List (String × Ty)
  ret : Ty
  sigs : List Signature

/-- The values that are known at a place: results of instructions, and pointers to storage that
holds a value, each with the type of that value. -/
structure Ctx where
  temps : List (Nat × Ty)
  slots : List (Nat × Ty)

namespace Ctx

/-- Nothing is known. -/
def empty : Ctx := ⟨[], []⟩

/-- A context with one more result. -/
def define (Δ : Ctx) (k : Nat) (ty : Ty) : Ctx := { Δ with temps := (k, ty) :: Δ.temps }

/-- A context with one more storage in use. -/
def bind (Δ : Ctx) (k : Nat) (ty : Ty) : Ctx := { Δ with slots := (k, ty) :: Δ.slots }

/-- All that is known, as values. -/
def values (Δ : Ctx) : List Value :=
  Δ.temps.map (fun t => ⟨.temp t.1, t.2⟩) ++ Δ.slots.map (fun t => ⟨.temp t.1, .ptr t.2⟩)

/-- More is known. -/
protected def Subset (Δ Δ' : Ctx) : Prop := Δ.temps ⊆ Δ'.temps ∧ Δ.slots ⊆ Δ'.slots

instance : HasSubset Ctx := ⟨Ctx.Subset⟩

theorem Subset.refl (Δ : Ctx) : Δ ⊆ Δ := ⟨List.Subset.refl _, List.Subset.refl _⟩

theorem Subset.trans {Δ Δ' Δ'' : Ctx} (h : Δ ⊆ Δ') (h' : Δ' ⊆ Δ'') : Δ ⊆ Δ'' :=
  ⟨List.Subset.trans h.1 h'.1, List.Subset.trans h.2 h'.2⟩

theorem subset_define (Δ : Ctx) (k : Nat) (ty : Ty) : Δ ⊆ Δ.define k ty :=
  ⟨List.subset_cons_self .., List.Subset.refl _⟩

theorem subset_bind (Δ : Ctx) (k : Nat) (ty : Ty) : Δ ⊆ Δ.bind k ty :=
  ⟨List.Subset.refl _, List.subset_cons_self ..⟩

end Ctx

/-- An operand that may be used: it is known, or it is a parameter, or a constant of its type. -/
inductive Operand (E : Env) (Δ : Ctx) : Value → Prop where
  | temp {k : Nat} {ty : Ty} (h : (k, ty) ∈ Δ.temps) : Operand E Δ ⟨.temp k, ty⟩
  | param {name : String} {ty : Ty} (h : (name, ty) ∈ E.params) : Operand E Δ ⟨.param name, ty⟩
  | const {c : Literal} {ty : Ty} (h : (Datum.ofLiteral c).Canonical ty) :
      Operand E Δ ⟨.const c, ty⟩

theorem Operand.mono {E : Env} {Δ Δ' : Ctx} (hsub : Δ ⊆ Δ') {v : Value} (h : Operand E Δ v) :
    Operand E Δ' v := by
  cases h with
  | temp h => exact .temp (hsub.1 h)
  | param h => exact .param h
  | const h => exact .const h

/-- An operation and the type of its result. Storage is reserved and filled by `Flow.bind` only. -/
inductive Operation.Typed (E : Env) (Δ : Ctx) : Operation → Ty → Prop where
  | load {k : Nat} {ty : Ty} (h : (k, ty) ∈ Δ.slots) : Typed E Δ (.load ⟨.temp k, .ptr ty⟩) ty
  | arith {op : Arith} {l r : Value} (hl : Operand E Δ l) (hr : Operand E Δ r) (hty : r.ty = l.ty)
      (hop : op.accepts l.ty = true) : Typed E Δ (.arith op l r) l.ty
  | compare {op : Relation} {l r : Value} (hl : Operand E Δ l) (hr : Operand E Δ r)
      (hty : r.ty = l.ty) (hs : l.ty.isScalar = true) : Typed E Δ (.compare op l r) .i1
  | cast {op : Conversion} {v : Value} {ty : Ty} (hv : Operand E Δ v)
      (hop : Conversion.between? v.ty ty = some op) : Typed E Δ (.cast op v ty) ty
  | call {sig : Signature} {args : List Value} (hs : sig ∈ E.sigs)
      (hargs : ∀ v ∈ args, Operand E Δ v) (htys : args.map (·.ty) = sig.params) :
      Typed E Δ (.call sig.name sig.ret args) sig.ret

/-- `Flow.Typed E n Δ g n'`: the flow `g` is typed where `Δ` is known. The values it defines are
numbered from `n` on, up to `n'`. -/
inductive Flow.Typed (E : Env) : Nat → Ctx → Flow → Nat → Prop where
  | fall (n : Nat) (Δ : Ctx) : Typed E n Δ .fall n
  | retNothing {n : Nat} {Δ : Ctx} (hret : E.ret.isVoid = true) : Typed E n Δ (.ret none) n
  | ret {n : Nat} {Δ : Ctx} {v : Value} (hv : Operand E Δ v) (hty : v.ty = E.ret)
      (hs : v.ty.isScalar = true) : Typed E n Δ (.ret (some v)) n
  | define {n n' : Nat} {Δ : Ctx} {op : Operation} {ty : Ty} {rest : Flow} (hop : op.Typed E Δ ty)
      (hs : ty.isScalar = true) (hrest : Typed E (n + 1) (Δ.define n ty) rest n') :
      Typed E n Δ (.emit ⟨some ⟨.temp n, ty⟩, op⟩ rest) n'
  | perform {n n' : Nat} {Δ : Ctx} {op : Operation} {ty : Ty} {rest : Flow}
      (hop : op.Typed E Δ ty) (hv : ty.isVoid = true) (hrest : Typed E n Δ rest n') :
      Typed E n Δ (.emit ⟨none, op⟩ rest) n'
  | bind {n n' : Nat} {Δ : Ctx} {v : Value} {rest : Flow} (hv : Operand E Δ v)
      (hs : v.ty.isScalar = true) (hrest : Typed E (n + 1) (Δ.bind n v.ty) rest n') :
      Typed E n Δ (.bind n v rest) n'
  | when {n n₁ n' : Nat} {Δ : Ctx} {cond : Value} {yes rest : Flow} (hc : Operand E Δ cond)
      (hty : cond.ty = .i1) (hyes : Typed E n Δ yes n₁) (hrest : Typed E n₁ Δ rest n') :
      Typed E n Δ (.when cond yes rest) n'
  | either {n n₁ n₂ n' : Nat} {Δ : Ctx} {cond : Value} {yes no rest : Flow} {base : String}
      (hc : Operand E Δ cond) (hty : cond.ty = .i1) (hyes : Typed E n Δ yes n₁)
      (hno : Typed E n₁ Δ no n₂) (hrest : Typed E n₂ Δ rest n') :
      Typed E n Δ (.either cond yes base no rest) n'

/-- A flow defines as many values as it has instructions with a result. -/
theorem Flow.Typed.count {E : Env} {n n' : Nat} {Δ : Ctx} {g : Flow} (h : g.Typed E n Δ n') :
    n' = n + g.defs := by
  induction h with
  | fall | retNothing | ret => rfl
  | define _ _ _ ih =>
    simp [Flow.defs, results, ih]
    omega
  | perform _ _ _ ih => simp [Flow.defs, results, ih]
  | bind _ _ _ ih =>
    simp [Flow.defs, ih]
    omega
  | when _ _ _ _ ihy ih =>
    simp only [Flow.defs, ih, ihy]
    omega
  | either _ _ _ _ _ ihy ihn ih =>
    simp only [Flow.defs, ih, ihn, ihy]
    omega

/-! ## Canonical values -/

/-- The conversions that there are, by the kinds of their types. -/
inductive Conversion.Between : Ty → Ty → Conversion → Prop where
  | zext {ty' : Ty} (h' : ty'.isInt = true) : Between .i1 ty' .zext
  | sext {ty ty' : Ty} (h : ty.isInt = true) (h' : ty'.isInt = true) : Between ty ty' .sext
  | trunc {ty ty' : Ty} (h : ty.isInt = true) (h' : ty'.isInt = true) : Between ty ty' .trunc
  | fpext {ty ty' : Ty} (h : ty.isFloat = true) (h' : ty'.isFloat = true) : Between ty ty' .fpext
  | fptrunc {ty ty' : Ty} (h : ty.isFloat = true) (h' : ty'.isFloat = true) :
      Between ty ty' .fptrunc
  | sitofp {ty ty' : Ty} (h : ty.isInt = true) (h' : ty'.isFloat = true) : Between ty ty' .sitofp
  | uitofp {ty' : Ty} (h' : ty'.isFloat = true) : Between .i1 ty' .uitofp
  | fptosi {ty ty' : Ty} (h : ty.isFloat = true) (h' : ty'.isInt = true) : Between ty ty' .fptosi

theorem Conversion.between_of_eq_some {ty ty' : Ty} {op : Conversion}
    (h : between? ty ty' = some op) : Between ty ty' op := by
  cases ty <;> cases ty' <;> cases h <;> constructor <;> rfl

theorem Datum.canonical_narrowInt {ty : Ty} (h : ty.isInt = true) (v : Int64) :
    (Datum.int (ty.narrowInt v)).Canonical ty := by
  cases ty <;> try cases h
  · simp only [Datum.Canonical, Ty.narrowInt, Int32.toInt_toInt64]
    exact ⟨Int32.minValue_le_toInt _, Int32.toInt_le _⟩
  · trivial

theorem Datum.canonical_narrowFloat {ty : Ty} (h : ty.isFloat = true) (x : Double) :
    (Datum.float (ty.narrowFloat x)).Canonical ty := by
  cases ty <;> try cases h
  · exact x.roundSingle_roundSingle
  · trivial

end ProcLang.IR

import ProcLang.IR.Module
import ProcLang.Proofs.IR.Typing
import ProcLang.Proofs.Text.Numerals

/-!
# Code that can be read back from its text

The text of code leaves things out: what a pointer points to, the type of the second operand of a
computation, the type of a result. And it has one form for temporaries and parameters. Code is
legible if what is left out follows from what is there. All values that an operation takes have to
be of the types that it needs, constants have to be canonical, and names have to be names.

## Main definitions

* `Value.Legible`, `Operation.Legible`, `Terminator.Legible`, `Block.Legible` — legible parts of
  code.
* `Function.Legible`, `Module.Legible` — legible functions and modules.

## Main statements

* `Value.eq_of_text_eq` — legible values of one type have different texts.
-/
namespace ProcLang

/-- A word without a point: no temporary and no label can be taken for it. -/
def IsName (s : String) : Prop := IsWord s ∧ '.' ∉ s.toList

namespace IR

/-! ## Types -/

theorem Ty.isWord_text (ty : Ty) : IsWord ty.text := by
  cases ty <;> simp [Ty.text, IsWord, isMark]

/-- Pointers apart, types have different texts. -/
theorem Ty.eq_of_text_eq {ty ty' : Ty} (h : ty.isPtr = false) (h' : ty'.isPtr = false)
    (heq : ty.text = ty'.text) : ty = ty' := by
  cases ty <;> cases ty' <;> simp_all [Ty.text, Ty.isPtr]

theorem Ty.isPtr_of_isScalar {ty : Ty} (h : ty.isScalar = true) : ty.isPtr = false := by
  cases ty <;> simp_all [Ty.isScalar, Ty.isPtr]

/-! ## Values -/

/-- Names are names and constants are canonical. -/
inductive Value.Legible : Value → Prop where
  | temp (n : Nat) (ty : Ty) : Legible ⟨.temp n, ty⟩
  | param {name : String} (h : IsName name) (ty : Ty) : Legible ⟨.param name, ty⟩
  | const {c : Literal} {ty : Ty} (h : (Datum.ofLiteral c).Canonical ty) : Legible ⟨.const c, ty⟩

namespace Value

theorem toList_text_temp (n : Nat) (ty : Ty) : (Value.mk (.temp n) ty).text.toList =
    '%' :: 't' :: 'm' :: 'p' :: '.' :: Nat.toDigits 10 n := by
  change ("%tmp." ++ toString n).toList = _
  simp

theorem toList_text_param (name : String) (ty : Ty) :
    (Value.mk (.param name) ty).text.toList = '%' :: name.toList := by
  simp [text]

theorem temp_inj {n m : Nat} {ty ty' : Ty}
    (h : (Value.mk (.temp n) ty).text = (Value.mk (.temp m) ty').text) : n = m := by
  have h := congrArg String.toList h
  rw [toList_text_temp, toList_text_temp] at h
  exact toDigits_inj (by simpa using h)

theorem text_temp_ne_param {name : String} (h : IsName name) (n : Nat) (ty ty' : Ty) :
    (Value.mk (.temp n) ty).text ≠ (Value.mk (.param name) ty').text := by
  intro heq
  have heq := congrArg String.toList heq
  rw [toList_text_temp, toList_text_param] at heq
  have hpoint : '.' ∈ name.toList := by
    rw [← (List.cons.inj heq).2]
    simp
  exact h.2 hpoint

/-- Only temporaries and parameters start with a percent sign. -/
theorem text_ne_const {v : Value} {cs : List Char} (hv : v.text.toList = '%' :: cs) (c : Literal)
    (ty : Ty) : v.text ≠ (Value.mk (.const c) ty).text := by
  intro heq
  have h : (Value.mk (.const c) ty).text.toList = '%' :: cs := heq ▸ hv
  cases c with
  | int i =>
    have hmem : '%' ∈ (toString i.toInt).toList := h ▸ List.mem_cons_self
    rcases mem_toString hmem with hd | hd
    · simp [Char.isDigit] at hd
    · simp at hd
  | bool b =>
    cases b
    · simp [text, Literal.boolText] at h
    · simp [text, Literal.boolText] at h
  | float x =>
    obtain ⟨k, hk⟩ := (ty.narrowFloat x).toList_hex
    have h : (ty.narrowFloat x).hex.toList = '%' :: cs := h
    rw [hk] at h
    cases h

theorem isWord_text {v : Value} (h : v.Legible) : IsWord v.text := by
  cases h with
  | temp n ty =>
    intro c hc
    rw [toList_text_temp] at hc
    simp only [List.mem_cons] at hc
    rcases hc with rfl | rfl | rfl | rfl | rfl | hc
    iterate 5 rfl
    exact isMark_eq_false_of_isDigit (isDigit_of_mem_toDigits hc)
  | param h ty => exact isWord_append.mpr ⟨by decide, h.1⟩
  | @const c ty h =>
    cases c with
    | int i => exact isWord_toString i.toInt
    | bool b =>
      change IsWord (Literal.boolText b)
      cases b <;> decide
    | float x => exact Double.isWord_hex _

/-- A canonical float is not rounded again when it is written. -/
theorem narrowFloat_of_canonical {x : Double} {ty : Ty} (h : (Datum.float x).Canonical ty) :
    ty.narrowFloat x = x := by
  cases ty <;> simp_all [Datum.Canonical, Ty.narrowFloat]

/-- Canonical constants of one type have different texts. -/
theorem const_inj {c c' : Literal} {ty : Ty} (h : (Datum.ofLiteral c).Canonical ty)
    (h' : (Datum.ofLiteral c').Canonical ty)
    (heq : (Value.mk (.const c) ty).text = (Value.mk (.const c') ty).text) : c = c' := by
  cases c with
  | int i =>
    cases c' with
    | int j =>
      have hij : i.toInt = j.toInt := eq_of_toString_eq heq
      rw [Int64.toInt_inj.mp hij]
    | bool | float => cases ty <;> simp_all [Datum.Canonical, Datum.ofLiteral]
  | bool b =>
    cases c' with
    | bool b' => cases b <;> cases b' <;> simp_all [text, Literal.boolText]
    | int | float => cases ty <;> simp_all [Datum.Canonical, Datum.ofLiteral]
  | float x =>
    cases c' with
    | float y =>
      have hxy : (ty.narrowFloat x).hex = (ty.narrowFloat y).hex := heq
      rw [narrowFloat_of_canonical h, narrowFloat_of_canonical h'] at hxy
      rw [Double.eq_of_hex_eq hxy]
    | int | bool => cases ty <;> simp_all [Datum.Canonical, Datum.ofLiteral]

/-- Legible values of one type have different texts. -/
theorem eq_of_text_eq {v w : Value} (hv : v.Legible) (hw : w.Legible) (hty : v.ty = w.ty)
    (h : v.text = w.text) : v = w := by
  cases hv with
  | temp n ty =>
    cases hw with
    | temp m ty' =>
      obtain rfl : ty = ty' := hty
      rw [temp_inj h]
    | param hname ty' => exact absurd h (text_temp_ne_param hname n ty ty')
    | const hc => exact absurd h (text_ne_const (toList_text_temp n ty) _ _)
  | param hname ty =>
    cases hw with
    | temp m ty' => exact absurd h.symm (text_temp_ne_param hname m ty' ty)
    | param hname' ty' =>
      obtain rfl : ty = ty' := hty
      have h := congrArg String.toList h
      rw [toList_text_param, toList_text_param] at h
      rw [String.toList_inj.mp (List.cons.inj h).2]
    | const hc => exact absurd h (text_ne_const (toList_text_param _ ty) _ _)
  | const hc =>
    cases hw with
    | temp m ty' => exact absurd h.symm (text_ne_const (toList_text_temp m ty') _ _)
    | param hname' ty' => exact absurd h.symm (text_ne_const (toList_text_param _ ty') _ _)
    | const hc' =>
      subst hty
      rw [const_inj hc hc' h]

end Value

/-! ## Code -/

/-- `op.Legible r`: the operands of `op` are of the types that it needs, and `r` is the type of its
result, if it has one. -/
inductive Operation.Legible : Operation → Option Ty → Prop where
  | alloca {ty : Ty} (hs : ty.isScalar = true) : Legible (.alloca ty) (some (.ptr ty))
  | load {ty : Ty} (k : Nat) (hs : ty.isScalar = true) :
      Legible (.load ⟨.temp k, .ptr ty⟩) (some ty)
  | store {v : Value} (k : Nat) (hv : v.Legible) (hs : v.ty.isScalar = true) :
      Legible (.store v ⟨.temp k, .ptr v.ty⟩) none
  | arith {op : Arith} {l r : Value} (hl : l.Legible) (hr : r.Legible) (hty : r.ty = l.ty)
      (hs : l.ty.isScalar = true) : Legible (.arith op l r) (some l.ty)
  | compare {op : Relation} {l r : Value} (hl : l.Legible) (hr : r.Legible) (hty : r.ty = l.ty)
      (hs : l.ty.isScalar = true) : Legible (.compare op l r) (some .i1)
  | call {name : String} {ret : Ty} {args : List Value} (hname : IsName name)
      (hargs : ∀ v ∈ args, v.Legible ∧ v.ty.isScalar = true) (hs : ret.isScalar = true) :
      Legible (.call name ret args) (some ret)
  | callNothing {name : String} {args : List Value} (hname : IsName name)
      (hargs : ∀ v ∈ args, v.Legible ∧ v.ty.isScalar = true) :
      Legible (.call name .void args) none
  | cast {op : Conversion} {v : Value} {ty : Ty} (hv : v.Legible) (hs : v.ty.isScalar = true)
      (hs' : ty.isScalar = true) : Legible (.cast op v ty) (some ty)

/-- A legible operation and a temporary for its result. -/
inductive Instr.Legible : Instr → Prop where
  | define {op : Operation} {ty : Ty} (n : Nat) (h : op.Legible (some ty)) :
      Legible ⟨some ⟨.temp n, ty⟩, op⟩
  | perform {op : Operation} (h : op.Legible none) : Legible ⟨none, op⟩

/-- Labels are words and operands are legible. -/
inductive Terminator.Legible : Terminator → Prop where
  | retNothing : Legible (.ret none)
  | ret {v : Value} (hv : v.Legible) (hs : v.ty.isScalar = true) : Legible (.ret (some v))
  | br {target : String} (h : IsWord target) : Legible (.br target)
  | brIf {cond : Value} {yes no : String} (hc : cond.Legible) (hty : cond.ty = .i1)
      (hyes : IsWord yes) (hno : IsWord no) : Legible (.brIf cond yes no)
  | unreachable : Legible .unreachable

/-- A block that has ended. -/
structure Block.Legible (b : Block) : Prop where
  label : IsWord b.label
  instrs : ∀ i ∈ b.instrs, i.Legible
  terminator : ∃ t, b.terminator = some t ∧ t.Legible

/-- The text does not show how many temporaries a function has, so this has to follow from its
instructions. -/
structure Function.Legible (f : Function) : Prop where
  name : IsName f.name
  ret : f.ret.isPtr = false
  params : ∀ p ∈ f.params, IsName p.1 ∧ p.2.isScalar = true
  blocks : ∀ b ∈ f.blocks, b.Legible
  temps : f.temps = f.defined.length

/-- A module of legible functions. -/
def Module.Legible (m : Module) : Prop := ∀ f ∈ m.functions, f.Legible

end IR
end ProcLang

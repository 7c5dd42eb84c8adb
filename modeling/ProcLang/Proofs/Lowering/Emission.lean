import ProcLang.Lowering.Expr
import ProcLang.Proofs.IR.Building

/-!
# The code of an expression

Lowering an expression only adds instructions at the end of the current block. `Emits` says which
ones, without the state that lowering runs on: from the names in scope and the number of the next
temporary it relates an expression to its instructions, its value and the number of the next
temporary behind them.

## Main definitions

* `Casts` — the code of a conversion.
* `Emits`, `EmitsAll` — the code of an expression and of the arguments of a call.
* `Frame.Adds` — a frame with instructions added to its current block.
-/
namespace ProcLang

open IR (Instr Value Operation)

/-! ## Actions that succeed -/

namespace Lower

variable {α β : Type} {F F' : Frame}

theorem seq_eq_ok {ε σ : Type} {x : EStateM ε σ α} {k : α → EStateM ε σ β} {b : β} {s s' : σ} :
    (x >>= k) s = .ok b s' ↔ ∃ a s₁, x s = .ok a s₁ ∧ k a s₁ = .ok b s' := by
  change EStateM.bind x k s = _ ↔ _
  unfold EStateM.bind
  cases x s with
  | ok a s₁ => simp [and_assoc]
  | error e s₁ => simp

@[simp] theorem pure_eq_ok {a b : α} :
    (pure a : Lower α) F = .ok b F' ↔ a = b ∧ F = F' := by
  change EStateM.Result.ok a F = _ ↔ _
  simp

@[simp] theorem fail_eq_ok {cause : LoweringCause} {pos : Option Position} {a : α} :
    (fail cause pos : Lower α) F = .ok a F' ↔ False := by
  change EStateM.Result.error _ F = _ ↔ _
  simp

@[simp] theorem get_eq_ok {G : Frame} : (get : Lower Frame) F = .ok G F' ↔ F = G ∧ F = F' := by
  change EStateM.Result.ok F F = _ ↔ _
  simp

@[simp] theorem modify_eq_ok {g : Frame → Frame} {u : Unit} :
    (modify g : Lower Unit) F = .ok u F' ↔ F' = g F := by
  change EStateM.Result.ok () (g F) = _ ↔ _
  simp [eq_comm]

theorem build_eq_ok {pos : Option Position} {a : α}
    {op : IR.Function → Nat → Except IR.Error (α × IR.Function)} :
    build pos op F = .ok a F' ↔
      ∃ code, op F.code F.block = .ok (a, code) ∧ F' = { F with code := code } := by
  unfold build
  cases op F.code F.block with
  | ok r => simp [Prod.ext_iff, eq_comm, and_assoc]
  | error e => simp

theorem performAt_eq_ok {pos : Option Position} {b : Nat} {u : Unit}
    {op : IR.Function → Nat → Except IR.Error IR.Function} :
    performAt pos b op F = .ok u F' ↔
      ∃ code, op F.code b = .ok code ∧ F' = { F with code := code } := by
  unfold performAt
  cases op F.code b with
  | ok code => simp [eq_comm]
  | error e => simp

theorem perform_eq_ok {pos : Option Position} {u : Unit}
    {op : IR.Function → Nat → Except IR.Error IR.Function} :
    perform pos op F = .ok u F' ↔
      ∃ code, op F.code F.block = .ok code ∧ F' = { F with code := code } := by
  simp [perform, seq_eq_ok, performAt_eq_ok, and_assoc]

@[simp] theorem lookup?_eq_ok {name : String} {b : Option Binding} :
    lookup? name F = .ok b F' ↔ F.scopes.lookup? name = b ∧ F = F' := by
  change EStateM.Result.ok _ F = _ ↔ _
  simp

end Lower

/-! ## Code -/

/-- `Casts n v ty is w n'`: the instructions `is` convert `v` to type `ty` and the result is `w`,
if `n` is the next temporary before and `n'` the one behind. -/
inductive Casts (n : Nat) (v : Value) (ty : IR.Ty) : List Instr → Value → Nat → Prop where
  | same (h : v.ty = ty) : Casts n v ty [] v n
  | folded {w : Value} (h : v.ty ≠ ty) (fold : v.fold ty = some w) : Casts n v ty [] w n
  | truth {zero : Value} (h : v.ty ≠ ty) (fold : v.fold ty = none) (bool : ty = .i1)
      (hz : IR.Function.zero? v.ty = some zero) :
      Casts n v ty [⟨some ⟨.temp n, ty⟩, .compare .ne v zero⟩] ⟨.temp n, ty⟩ (n + 1)
  | converted {op : IR.Conversion} (h : v.ty ≠ ty) (fold : v.fold ty = none)
      (hop : IR.Conversion.between? v.ty ty = some op) :
      Casts n v ty [⟨some ⟨.temp n, ty⟩, .cast op v ty⟩] ⟨.temp n, ty⟩ (n + 1)

namespace Operator

/-- What an operator computes. -/
def operation (op : Operator) (lhs rhs : Value) : Operation :=
  match op with
  | .add => .arith .add lhs rhs
  | .sub => .arith .sub lhs rhs
  | .mul => .arith .mul lhs rhs
  | .fdiv => .arith .fdiv lhs rhs
  | .idiv => .arith .sdiv lhs rhs
  | .lt => .compare .lt lhs rhs
  | .gt => .compare .gt lhs rhs
  | .eq => .compare .eq lhs rhs

/-- The type of the result of an operator on operands of type `ty`. -/
def resultTy (op : Operator) (ty : IR.Ty) : IR.Ty :=
  match op with
  | .add | .sub | .mul | .fdiv | .idiv => ty
  | .lt | .gt | .eq => .i1

end Operator

mutual

/-- `Emits S n e is v n'`: with the names of `S` in scope the instructions `is` compute `e` and the
result is `v`, if `n` is the next temporary before and `n'` the one behind. -/
inductive Emits (S : Scopes Binding) : Nat → Expr → List Instr → Value → Nat → Prop where
  | literal (n : Nat) (c : Literal) (pos : Option Position) :
      Emits S n (.literal c pos) [] (.ofLiteral c) n
  | var {n : Nat} {name : String} {storage : Value} {ty : IR.Ty} {pos : Option Position}
      (hs : S.lookup? name = some (.slot storage)) (hty : storage.ty = .ptr ty) :
      Emits S n (.var name pos) [⟨some ⟨.temp n, ty⟩, .load storage⟩] ⟨.temp n, ty⟩ (n + 1)
  | binary {n n₁ n₂ n₃ n₄ : Nat} {op : Operator} {l r : Expr} {pos : Option Position}
      {is₁ is₂ is₃ is₄ : List Instr} {v₁ v₂ w₁ w₂ : Value} {ty : IR.Ty}
      (hl : Emits S n l is₁ v₁ n₁) (hr : Emits S n₁ r is₂ v₂ n₂)
      (hty : op.operandTy v₁.ty v₂.ty = ty)
      (hcl : Casts n₂ v₁ ty is₃ w₁ n₃) (hcr : Casts n₃ v₂ ty is₄ w₂ n₄) :
      Emits S n (.binary op l r pos)
        (is₁ ++ is₂ ++ is₃ ++ is₄ ++ [⟨some ⟨.temp n₄, op.resultTy w₁.ty⟩, op.operation w₁ w₂⟩])
        ⟨.temp n₄, op.resultTy w₁.ty⟩ (n₄ + 1)
  | call {n n' : Nat} {name : String} {sig : IR.Signature} {args : List Expr}
      {pos : Option Position} {is : List Instr} {vs : List Value}
      (hs : S.lookup? name = some (.function sig)) (hret : sig.ret.isVoid = false)
      (ha : EmitsAll S n args sig.params is vs n') :
      Emits S n (.call name args pos)
        (is ++ [⟨some ⟨.temp n', sig.ret⟩, .call sig.name sig.ret vs⟩]) ⟨.temp n', sig.ret⟩ (n' + 1)

/-- The code of arguments, converted to the given types. -/
inductive EmitsAll (S : Scopes Binding) :
    Nat → List Expr → List IR.Ty → List Instr → List Value → Nat → Prop where
  | nil (n : Nat) : EmitsAll S n [] [] [] [] n
  | cons {n n₁ n₂ n₃ : Nat} {e : Expr} {es : List Expr} {ty : IR.Ty} {tys : List IR.Ty}
      {is₁ is₂ is₃ : List Instr} {v w : Value} {ws : List Value}
      (he : Emits S n e is₁ v n₁) (hc : Casts n₁ v ty is₂ w n₂)
      (hes : EmitsAll S n₂ es tys is₃ ws n₃) :
      EmitsAll S n (e :: es) (ty :: tys) (is₁ ++ is₂ ++ is₃) (w :: ws) n₃

end

theorem Casts.temps {n n' : Nat} {v w : Value} {ty : IR.Ty} {is : List Instr}
    (h : Casts n v ty is w n') : n' = n + IR.results is := by
  cases h <;> simp [IR.results]

/-- Only constants are folded, and to a constant of the new type. -/
theorem IR.Value.fold_eq_some {v w : Value} {ty : IR.Ty} (h : v.fold ty = some w) :
    ∃ c, v.kind = .const c ∧
      (ty = .i1 ∧ w = .bool (Value.truth c) ∨
        ty.isInt ∧ w = .int (ty.narrowInt (Value.toInt c)) ty ∨
        ty.isFloat ∧ w = .float (ty.narrowFloat (Value.toDouble c)) ty) := by
  unfold Value.fold at h
  split at h
  case h_2 => cases h
  case h_1 c hc =>
    refine ⟨c, hc, ?_⟩
    cases ty <;> simp_all [IR.Ty.isBool, IR.Ty.isInt, IR.Ty.isFloat]

theorem Casts.ty_eq {n n' : Nat} {v w : Value} {ty : IR.Ty} {is : List Instr}
    (h : Casts n v ty is w n') : w.ty = ty := by
  cases h with
  | same h => exact h
  | folded _ fold =>
    obtain ⟨c, -, ⟨rfl, rfl⟩ | ⟨-, rfl⟩ | ⟨-, rfl⟩⟩ := IR.Value.fold_eq_some fold <;> rfl
  | truth | converted => rfl

mutual

theorem Emits.le {S : Scopes Binding} {n n' : Nat} {e : Expr} {is : List Instr} {v : Value}
    (h : Emits S n e is v n') : n ≤ n' := by
  cases h with
  | literal => exact Nat.le_refl n
  | var => exact Nat.le_succ n
  | binary hl hr _ hcl hcr =>
    have := hl.le
    have := hr.le
    have := hcl.temps
    have := hcr.temps
    omega
  | call _ _ ha =>
    have := ha.le
    omega

theorem EmitsAll.le {S : Scopes Binding} {n n' : Nat} {es : List Expr} {tys : List IR.Ty}
    {is : List Instr} {vs : List Value} (h : EmitsAll S n es tys is vs n') : n ≤ n' := by
  cases h with
  | nil => exact Nat.le_refl n
  | cons he hc hes =>
    have := he.le
    have := hc.temps
    have := hes.le
    omega

end

/-! ## Frames -/

/-- A frame with instructions added to its current block. -/
def Frame.emit (F : Frame) (is : List Instr) : Frame := { F with code := F.code.emit F.block is }

/-- From one frame to another by adding instructions to the current block, which has to be open if
there are any. -/
def Frame.Adds (F : Frame) (is : List Instr) (F' : Frame) : Prop :=
  F' = F.emit is ∧ (is ≠ [] → F.code.Open F.block)

namespace Frame.Adds

variable {F F₁ F₂ : Frame} {is is' : List Instr}

theorem refl (F : Frame) : F.Adds [] F := ⟨by simp [Frame.emit], by simp⟩

theorem trans (h : F.Adds is F₁) (h' : F₁.Adds is' F₂) : F.Adds (is ++ is') F₂ := by
  obtain ⟨rfl, ho⟩ := h
  obtain ⟨rfl, ho'⟩ := h'
  refine ⟨by simp [Frame.emit], ?_⟩
  intro hne
  by_cases his : is = []
  · subst his
    exact IR.Function.open_emit.mp (ho' hne)
  · exact ho his

theorem scopes (h : F.Adds is F₁) : F₁.scopes = F.scopes := by rw [h.1]; rfl

theorem temps (h : F.Adds is F₁) : F₁.code.temps = F.code.temps + IR.results is := by
  rw [h.1]; rfl

end Frame.Adds

namespace Lower

variable {F F' : Frame}

theorem define_adds {code : IR.Function} {ty : IR.Ty} {op : Operation} {v : Value}
    (h : F.code.define F.block ty op = .ok (v, code)) :
    v = ⟨.temp F.code.temps, ty⟩ ∧ F.Adds [⟨some v, op⟩] { F with code := code } := by
  obtain ⟨ho, rfl, rfl⟩ := IR.Function.define_eq_ok.mp h
  exact ⟨rfl, rfl, fun _ => ho⟩

theorem cast_adds {pos : Option Position} {v w : Value} {ty : IR.Ty}
    (h : cast pos v ty F = .ok w F') :
    ∃ is, Casts F.code.temps v ty is w F'.code.temps ∧ F.Adds is F' := by
  obtain ⟨code, hc, rfl⟩ := build_eq_ok.mp h
  obtain ⟨hty, rfl, rfl⟩ | ⟨hty, hfold, rfl⟩ | ⟨hty, hfold, h⟩ := IR.Function.cast_ok hc
  · exact ⟨[], .same hty, .refl F⟩
  · exact ⟨[], .folded hty hfold, .refl F⟩
  · obtain ⟨zero, rfl, hz, hc⟩ | ⟨op, hop, hc⟩ := h
    · obtain ⟨rfl, hadd⟩ := define_adds (IR.Function.compare_ok hc).2.2
      exact ⟨_, hadd.temps ▸ .truth hty hfold rfl hz, hadd⟩
    · obtain ⟨rfl, hadd⟩ := define_adds hc
      exact ⟨_, hadd.temps ▸ .converted hty hfold hop, hadd⟩

/-- The instruction of an operator. -/
theorem emit_ok {op : Operator} {l r : Value} {f : IR.Function} {b : Nat}
    {x : Value × IR.Function} (h : op.emit l r f b = .ok x) :
    f.define b (op.resultTy l.ty) (op.operation l r) = .ok x := by
  cases op
  case lt | gt | eq => exact (IR.Function.compare_ok h).2.2
  all_goals exact (IR.Function.arith_ok h).2.2

theorem binary_adds {op : Operator} {l r v : Value} {pos : Option Position}
    (h : binary op l r pos F = .ok v F') :
    ∃ is is' w w' n₁ n₂, Casts F.code.temps l (op.operandTy l.ty r.ty) is w n₁ ∧
      Casts n₁ r (op.operandTy l.ty r.ty) is' w' n₂ ∧ v = ⟨.temp n₂, op.resultTy w.ty⟩ ∧
      F'.code.temps = n₂ + 1 ∧ F.Adds (is ++ is' ++ [⟨some v, op.operation w w'⟩]) F' := by
  simp only [binary, seq_eq_ok] at h
  obtain ⟨w, F₁, h₁, w', F₂, h₂, h₃⟩ := h
  obtain ⟨is, hc, ha⟩ := cast_adds h₁
  obtain ⟨is', hc', ha'⟩ := cast_adds h₂
  obtain ⟨code, hb, rfl⟩ := build_eq_ok.mp h₃
  obtain ⟨rfl, hd⟩ := define_adds (emit_ok hb)
  exact ⟨is, is', w, w', _, _, hc, hc', rfl, hd.temps, (ha.trans ha').trans hd⟩

theorem readVar_adds {name : String} {pos : Option Position} {v : Value}
    (h : readVar name pos F = .ok v F') :
    ∃ is, Emits F.scopes F.code.temps (.var name pos) is v F'.code.temps ∧ F.Adds is F' := by
  simp only [readVar, seq_eq_ok, lookup?_eq_ok] at h
  obtain ⟨b, F₁, ⟨hs, rfl⟩, h⟩ := h
  match b with
  | some (.slot storage) =>
    obtain ⟨code, hc, rfl⟩ := build_eq_ok.mp h
    obtain ⟨ty, hty, hd⟩ := IR.Function.load_ok hc
    obtain ⟨rfl, hadd⟩ := define_adds hd
    exact ⟨_, hadd.temps ▸ .var hs hty, hadd⟩
  | some (.function _) => simp at h
  | none => simp at h

theorem callee_eq_ok {name : String} {count : Nat} {pos : Option Position} {sig : IR.Signature} :
    callee name count pos F = .ok sig F' ↔
      F.scopes.lookup? name = some (.function sig) ∧ sig.params.length = count ∧ F' = F := by
  simp only [callee, seq_eq_ok, lookup?_eq_ok]
  constructor
  · rintro ⟨b, F₁, ⟨hs, rfl⟩, h⟩
    match b with
    | some (.function sig') =>
      by_cases hc : sig'.params.length = count
      · simp_all
      · simp [hc] at h
    | some (.slot _) => simp at h
    | none => simp at h
  · rintro ⟨hs, hc, rfl⟩
    exact ⟨_, _, ⟨hs, rfl⟩, by simp [hc]⟩

/-- A call, given the values of its arguments. -/
theorem call_adds {name : String} {count : Nat} {pos : Option Position}
    {arguments : List IR.Ty → Lower (List Value)} {v : Option Value}
    (h : call name count pos arguments F = .ok v F') :
    ∃ sig vs F₁, F.scopes.lookup? name = some (.function sig) ∧ sig.params.length = count ∧
      arguments sig.params F = .ok vs F₁ ∧
      (sig.ret.isVoid = true ∧ v = none ∧
          F₁.Adds [⟨none, .call sig.name sig.ret vs⟩] F' ∨
        sig.ret.isVoid = false ∧ v = some ⟨.temp F₁.code.temps, sig.ret⟩ ∧
          F₁.Adds [⟨some ⟨.temp F₁.code.temps, sig.ret⟩, .call sig.name sig.ret vs⟩] F') := by
  simp only [call, seq_eq_ok, callee_eq_ok] at h
  obtain ⟨sig, F₀, ⟨hs, hcount, rfl⟩, vs, F₁, hargs, hb⟩ := h
  obtain ⟨code, hc, rfl⟩ := build_eq_ok.mp hb
  refine ⟨sig, vs, F₁, hs, hcount, hargs, ?_⟩
  obtain ⟨hret, rfl, hp⟩ | ⟨hret, w, rfl, hd⟩ := IR.Function.call_ok hc
  · obtain ⟨ho, rfl⟩ := IR.Function.perform_eq_ok.mp hp
    exact .inl ⟨hret, rfl, rfl, fun _ => ho⟩
  · obtain ⟨rfl, hadd⟩ := define_adds hd
    exact .inr ⟨hret, rfl, hadd⟩

mutual

theorem expr_adds (e : Expr) {F F' : Frame} {v : Value} (h : expr e F = .ok v F') :
    ∃ is, Emits F.scopes F.code.temps e is v F'.code.temps ∧ F.Adds is F' := by
  match e with
  | .literal c pos =>
    simp only [expr, pure_eq_ok] at h
    obtain ⟨rfl, rfl⟩ := h
    exact ⟨[], .literal _ c pos, .refl F⟩
  | .var name pos =>
    rw [expr] at h
    exact readVar_adds h
  | .binary op l r pos =>
    simp only [expr, seq_eq_ok] at h
    obtain ⟨v₁, F₁, h₁, v₂, F₂, h₂, h₃⟩ := h
    obtain ⟨is₁, he₁, ha₁⟩ := expr_adds l h₁
    obtain ⟨is₂, he₂, ha₂⟩ := expr_adds r h₂
    obtain ⟨is₃, is₄, w₁, w₂, n₃, n₄, hc₁, hc₂, rfl, hn, ha₃⟩ := binary_adds h₃
    rw [ha₁.scopes] at he₂
    refine ⟨_, by rw [hn]; exact .binary he₁ he₂ rfl hc₁ hc₂, ?_⟩
    simpa only [List.append_assoc] using (ha₁.trans ha₂).trans ha₃
  | .call name args pos =>
    simp only [expr, seq_eq_ok] at h
    obtain ⟨r, F₂, hcall, hr⟩ := h
    obtain ⟨sig, vs, F₁, hs, hcount, hargs, hcall⟩ := call_adds hcall
    obtain ⟨is, ha, hadd⟩ := exprs_adds args sig.params hcount hargs
    obtain ⟨-, rfl, -⟩ | ⟨hret, rfl, hadd'⟩ := hcall
    · simp at hr
    · simp only [pure_eq_ok] at hr
      obtain ⟨rfl, rfl⟩ := hr
      exact ⟨_, hadd'.temps ▸ .call hs hret ha, hadd.trans hadd'⟩
  | .return values pos => simp [expr] at h
  | .assign name ty value pos => simp [expr] at h

theorem exprs_adds (es : List Expr) (tys : List IR.Ty) {F F' : Frame} {vs : List Value}
    (hl : tys.length = es.length) (h : exprs es tys F = .ok vs F') :
    ∃ is, EmitsAll F.scopes F.code.temps es tys is vs F'.code.temps ∧ F.Adds is F' := by
  match es, tys with
  | [], [] =>
    simp only [exprs, pure_eq_ok] at h
    obtain ⟨rfl, rfl⟩ := h
    exact ⟨[], .nil _, .refl F⟩
  | e :: es, ty :: tys =>
    simp only [exprs, seq_eq_ok, pure_eq_ok] at h
    obtain ⟨v, F₁, h₁, w, F₂, h₂, ws, F₃, h₃, rfl, rfl⟩ := h
    obtain ⟨is₁, he, ha₁⟩ := expr_adds e h₁
    obtain ⟨is₂, hc, ha₂⟩ := cast_adds h₂
    obtain ⟨is₃, hes, ha₃⟩ := exprs_adds es tys (by simpa using hl) h₃
    rw [ha₂.scopes, ha₁.scopes] at hes
    exact ⟨_, .cons he hc hes, (ha₁.trans ha₂).trans ha₃⟩

end

end Lower
end ProcLang

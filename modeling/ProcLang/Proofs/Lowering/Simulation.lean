import ProcLang.Proofs.IR.Structured
import ProcLang.Proofs.Lowering.Values

/-!
# Evaluation and code side by side

The code of an expression leaves what its value is kept as, and the flow of statements comes to what
the statements come to. A variable is a value to the evaluation and storage to the code: a new
assignment gets new storage, so that storage once filled never changes, and what a name meant
outside a conditional it still means behind it.

## Main definitions

* `Held` — an operand of the code stands for a value.
* `Grows` — a frame in which what was there is still there.
* `Represents` — a frame in which every name means what it means to the evaluation.

## Main statements

* `Casts.run`, `Emits.matches_eval` — conversions and expressions.
* `Lowers.matches_evals` — statements.
-/
namespace ProcLang

open IR (Activation Datum Flow Instr Operation Run Value runInstrs)

/-! ## Frames -/

/-- The operand `v` stands for the value `x`, and is a temporary below `n` if it is one. -/
structure Held (n : Nat) (a : Activation) (v : Value) (x : Val) : Prop where
  below : ∀ k, v.kind = .temp k → k < n
  get : a.get v = .ok x.datum
  ty : v.ty = x.ty.lower

/-- From the frame `a` to the frame `a'` only temporaries from `n` up to `n'` and new storage have
got values. -/
structure Grows (n : Nat) (a : Activation) (n' : Nat) (a' : Activation) : Prop where
  le : n ≤ n'
  params : a'.params = a.params
  temps : ∀ k < n, a'.temps k = a.temps k
  memory : a.memory <+: a'.memory

namespace Grows

variable {n n₁ n₂ : Nat} {a a₁ a₂ : Activation}

theorem same (h : n ≤ n₁) (a : Activation) : Grows n a n₁ a :=
  ⟨h, rfl, fun _ _ => rfl, List.prefix_rfl⟩

theorem trans (h : Grows n a n₁ a₁) (h' : Grows n₁ a₁ n₂ a₂) : Grows n a n₂ a₂ where
  le := Nat.le_trans h.le h'.le
  params := h'.params.trans h.params
  temps k hk := (h'.temps k (Nat.lt_of_lt_of_le hk h.le)).trans (h.temps k hk)
  memory := h.memory.trans h'.memory

theorem withTemp (n : Nat) (a : Activation) (d : Datum) : Grows n a (n + 1) (a.withTemp n d) where
  le := Nat.le_succ n
  params := rfl
  temps _ hk := if_neg (Nat.ne_of_lt hk)
  memory := List.prefix_rfl

/-- New storage, with what is in it. -/
theorem storage (n : Nat) (a : Activation) (d : Option Datum) : Grows n a (n + 1)
    ({ a with memory := a.memory ++ [d] }.withTemp n (.ptr a.memory.length)) where
  le := Nat.le_succ n
  params := rfl
  temps _ hk := if_neg (Nat.ne_of_lt hk)
  memory := List.prefix_append _ _

theorem memory_eq {i : Nat} {d : Option Datum} (h : Grows n a n₁ a₁) (hd : a.memory[i]? = some d) :
    a₁.memory[i]? = some d := by
  obtain ⟨new, hnew⟩ := h.memory
  obtain ⟨hi, -⟩ := List.getElem?_eq_some_iff.mp hd
  rw [← hnew, List.getElem?_append_left hi, hd]

end Grows

namespace Held

variable {n n' : Nat} {a a' : Activation} {v : Value} {x : Val}

theorem grows (h : Held n a v x) (hg : Grows n a n' a') : Held n' a' v x where
  below k hk := Nat.lt_of_lt_of_le (h.below k hk) hg.le
  get := by
    rw [← h.get]
    unfold Activation.get
    split
    case h_1 => rfl
    case h_2 k hk => rw [hg.temps k (h.below k hk)]
    case h_3 => rw [hg.params]
  ty := h.ty

theorem ofLiteral (n : Nat) (a : Activation) (c : Literal) :
    Held n a (.ofLiteral c) (.ofLiteral c) := by
  cases c
  all_goals
    refine ⟨?_, rfl, rfl⟩
    intro k hk
    cases hk

theorem withTemp (n : Nat) (a : Activation) (x : Val) :
    Held (n + 1) (a.withTemp n x.datum) ⟨.temp n, x.ty.lower⟩ x where
  below k hk := by
    cases hk
    exact Nat.lt_succ_self n
  get := by simp [Activation.get, Activation.withTemp]
  ty := rfl

theorem getAll {vs : List Value} {xs : List Val} (h : List.Forall₂ (Held n a) vs xs) :
    a.getAll vs = .ok (xs.map Val.datum) := by
  induction h with
  | nil => rfl
  | cons hv _ ih =>
    simp only [Activation.getAll, hv.get, ih]
    rfl

end Held

/-- A frame behind code that has grown by it and holds its value. -/
structure Computed (n : Nat) (a : Activation) (n' : Nat) (v : Value) (x : Val) (a' : Activation) :
    Prop where
  grows : Grows n a n' a'
  held : Held n' a' v x

namespace Computed

variable {n n₁ n₂ : Nat} {a a₁ a₂ : Activation} {v : Value} {x : Val}

theorem after (h : Computed n₁ a₁ n₂ v x a₂) (hg : Grows n a n₁ a₁) : Computed n a n₂ v x a₂ :=
  ⟨hg.trans h.grows, h.held⟩

theorem withTemp (n : Nat) (a : Activation) (x : Val) :
    Computed n a (n + 1) ⟨.temp n, x.ty.lower⟩ x (a.withTemp n x.datum) :=
  ⟨.withTemp n a x.datum, .withTemp n a x⟩

end Computed

/-! ## Names -/

/-- What a name means to the code is what it means to the evaluation: a variable is in storage that
a temporary below `n` points to, and a function is one of the program. -/
inductive Binding.Represents (p : Program) (n : Nat) (ρ : Scopes Val) (a : Activation)
    (name : String) : Binding → Prop where
  | function {d : Declaration} (hvar : ρ.lookup? name = none)
      (hd : p.find? (·.name == name) = some d) :
      Represents p n ρ a name (.function d.header.signature)
  | slot {k i : Nat} {x : Val} (hk : k < n) (hvar : ρ.lookup? name = some x)
      (htemp : a.temps k = some (.ptr i)) (hmem : a.memory[i]? = some (some x.datum)) :
      Represents p n ρ a name (.slot ⟨.temp k, .ptr x.ty.lower⟩)

/-- Every name means to the code what it means to the evaluation. -/
def Represents (p : Program) (n : Nat) (S : Scopes Binding) (ρ : Scopes Val) (a : Activation) :
    Prop :=
  ∀ name b, S.lookup? name = some b → b.Represents p n ρ a name

namespace Represents

variable {p : Program} {n n' : Nat} {S : Scopes Binding} {ρ : Scopes Val} {a a' : Activation}

theorem grows (h : Represents p n S ρ a) (hg : Grows n a n' a') : Represents p n' S ρ a' := by
  intro name b hb
  cases h name b hb with
  | function hvar hd => exact .function hvar hd
  | slot hk hvar htemp hmem =>
    exact .slot (Nat.lt_of_lt_of_le hk hg.le) hvar ((hg.temps _ hk).trans htemp) (hg.memory_eq hmem)

theorem push (h : Represents p n S ρ a) : Represents p n S.push ρ.push a := by
  intro name b hb
  rw [Scopes.lookup?_push] at hb
  cases h name b hb with
  | function hvar hd => exact .function (by simpa using hvar) hd
  | slot hk hvar htemp hmem => exact .slot hk (by simpa using hvar) htemp hmem

/-- A name that is bound in both. -/
theorem insert (h : Represents p n S ρ a) {name : String} {b : Binding} {x : Val}
    (hb : b.Represents p n (ρ.insert name x) a name) :
    Represents p n (S.insert name b) (ρ.insert name x) a := by
  intro other b' hb'
  rw [Scopes.lookup?_insert] at hb'
  split at hb'
  case isTrue heq =>
    cases hb'
    rwa [heq]
  case isFalse hne =>
    have hρ : (ρ.insert name x).lookup? other = ρ.lookup? other := by
      rw [Scopes.lookup?_insert, if_neg hne]
    cases h other b' hb' with
    | function hvar hd => exact .function (hρ.trans hvar) hd
    | slot hk hvar htemp hmem => exact .slot hk (hρ.trans hvar) htemp hmem

/-- A new variable: new storage for its value, and a new temporary that points there. -/
theorem bind (h : Represents p n S ρ a) {w : Value} {x : Val} (hw : Held n a w x) (name : String)
    (call : String → List Datum → Run (Option Datum)) :
    ∃ a', runInstrs call a (Flow.reserve n w) = pure a' ∧ Grows n a (n + 1) a' ∧
      Represents p (n + 1) (S.insert name (.slot (Flow.slot n w))) (ρ.insert name x) a' := by
  have hgrows := Grows.storage n a (some x.datum)
  have hfill : (a.reserve n).store w (Flow.slot n w) =
      .ok ({ a with memory := a.memory ++ [some x.datum] }.withTemp n (.ptr a.memory.length)) := by
    have hptr : (a.reserve n).get (Flow.slot n w) = .ok (.ptr a.memory.length) := by
      simp [Activation.get, Activation.reserve, Activation.withTemp, Flow.slot]
    have hlt : a.memory.length < (a.reserve n).memory.length := by
      simp [Activation.reserve, Activation.withTemp]
    have hget : (a.reserve n).get w = .ok x.datum := (hw.grows (.storage n a none)).get
    rw [Activation.store_eq hget hptr hlt]
    simp [Activation.fill, Activation.reserve, Activation.withTemp]
  refine ⟨_, ?_, hgrows, (h.grows hgrows).insert ?_⟩
  · change runInstrs call (a.reserve n) [⟨none, .store w (Flow.slot n w)⟩] = _
    simp only [runInstrs, Operation.run, hfill]
    rfl
  · rw [Flow.slot, hw.ty]
    exact .slot (Nat.lt_succ_self n) (by simp [Scopes.lookup?_insert]) (if_pos rfl)
      (by simp [Activation.withTemp])

end Represents

/-! ## Expressions -/

theorem Casts.run {n n' : Nat} {v w : Value} {ty : Ty} {is : List Instr}
    (h : Casts n v ty.lower is w n') {a : Activation} {x : Val} (hv : Held n a v x)
    (call : String → List Datum → Run (Option Datum)) :
    ∃ a', runInstrs call a is = pure a' ∧ Computed n a n' w (x.convert ty) a' := by
  -- an instruction that leaves the converted value
  have define : ∀ {op : Operation}, op.run call a = pure (some (x.convert ty).datum, a) →
      ∃ a', runInstrs call a [⟨some ⟨.temp n, ty.lower⟩, op⟩] = pure a' ∧
        Computed n a (n + 1) ⟨.temp n, ty.lower⟩ (x.convert ty) a' := by
    intro op hop
    refine ⟨a.withTemp n (x.convert ty).datum, ?_, ?_⟩
    · simp only [runInstrs, hop]
      rfl
    · simpa using Computed.withTemp n a (x.convert ty)
  have hty : w.ty = (x.convert ty).ty.lower := by rw [h.ty_eq, Val.ty_convert]
  cases h with
  | same h =>
    obtain rfl : x.ty = ty := Ty.lower_injective (hv.ty.symm.trans h)
    exact ⟨a, rfl, .same (Nat.le_refl n) a, by rwa [Val.convert_ty]⟩
  | folded _ fold =>
    refine ⟨a, rfl, .same (Nat.le_refl n) a, ?_, Val.fold_datum hv.get fold, hty⟩
    obtain ⟨c, -, ⟨-, rfl⟩ | ⟨-, rfl⟩ | ⟨-, rfl⟩⟩ := IR.Value.fold_eq_some fold
    all_goals
      intro k hk
      cases hk
  | truth _ _ hbool hz =>
    obtain rfl : ty = .bool := Ty.lower_injective hbool
    obtain ⟨d, hd, horder⟩ := Val.order_zero a (hv.ty ▸ hz)
    refine define ?_
    simp only [Operation.run, Activation.compare_eq .ne hv.get hd, horder]
    rfl
  | converted _ _ hop =>
    refine define ?_
    simp only [Operation.run, Activation.cast_eq _ _ hv.get, Val.convert_datum (hv.ty ▸ hop)]
    rfl

/-- How calls of the functions of `p` are evaluated and how they are run agree. -/
def CallsMatch (p : Program) (call : String → List Val → Eval (Option Val))
    (call' : String → List Datum → Run (Option Datum)) : Prop :=
  ∀ d ∈ p, ∀ xs : List Val, xs.map Val.ty = d.params.map (·.ty) →
    Matches (Val.Returned d.returns.head?) (call d.name xs) (call' d.name (xs.map Val.datum))

section Expressions

variable {p : Program} {call : String → List Val → Eval (Option Val)}
  {call' : String → List Datum → Run (Option Datum)} {S : Scopes Binding} {ρ : Scopes Val}
  {a : Activation} {n n' : Nat}

/-- An instruction that leaves a value in a new temporary. -/
theorem Matches.define {x : Eval Val} {op : Operation} {ty : IR.Ty}
    (h : Matches (Operator.Left a ty) x (op.run call' a)) (n : Nat) :
    Matches (Computed n a (n + 1) ⟨.temp n, ty⟩) x
      (runInstrs call' a [⟨some ⟨.temp n, ty⟩, op⟩]) := by
  rw [← List.nil_append [_], IR.runInstrs_concat]
  refine h.map _ ?_
  rintro z r ⟨rfl, rfl⟩
  exact .withTemp n a z

theorem Ty.isVoid_elim (ty : Option Ty) : (ty.elim .void Ty.lower).isVoid = ty.isNone := by
  cases ty with
  | none => rfl
  | some ty => cases ty <;> rfl

theorem Declaration.ret_eq (d : Declaration) : d.ret = d.returns.head?.elim .void Ty.lower := by
  unfold Declaration.ret
  cases d.returns <;> rfl

/-- A call, given the code of its arguments. -/
theorem CallsMatch.invoke (hcall : CallsMatch p call call') (hS : Represents p n S ρ a)
    {name : String} {sig : IR.Signature} (hs : S.lookup? name = some (.function sig))
    {arguments : List Ty → Eval (List Val)} {is : List Instr} {vs : List Value}
    (hargs : ∀ tys : List Ty, sig.params = tys.map Ty.lower →
      Matches (fun xs a' => Grows n a n' a' ∧ List.Forall₂ (Held n' a') vs xs ∧
        xs.map Val.ty = tys) (arguments tys) (runInstrs call' a is)) :
    ∃ ret : Option Ty, sig.ret = ret.elim .void Ty.lower ∧
      Matches (fun x r => Val.Returned ret x r.1 ∧ Grows n a n' r.2)
        (p.invoke call ρ name arguments)
        (runInstrs call' a is >>= fun a => (Operation.call sig.name sig.ret vs).run call' a) := by
  cases hS _ _ hs with
  | @function d hvar hd =>
    refine ⟨d.returns.head?, d.ret_eq, ?_⟩
    have hparams : d.header.signature.params = (d.params.map (·.ty)).map Ty.lower := by
      simp [Declaration.header, Declaration.irParams, IR.Function.signature]
    have hinvoke : p.invoke call ρ name arguments =
        arguments (d.params.map (·.ty)) >>= call d.name := by
      simp only [Program.invoke, Program.callee?, hvar, hd]
      rfl
    rw [hinvoke]
    refine (hargs _ hparams).seq fun xs a' hxs => ?_
    obtain ⟨hg, hheld, htys⟩ := hxs
    have hrun : (Operation.call d.header.signature.name d.header.signature.ret vs).run call' a' =
        call' d.name (xs.map Val.datum) >>= fun r => pure (r, a') := by
      simp only [Operation.run, Held.getAll hheld]
      rfl
    rw [hrun]
    refine (hcall d (List.mem_of_find?_eq_some hd) xs htys).map _ ?_
    exact fun x r hx => ⟨hx, hg⟩

mutual

/-- The code of an expression leaves its value. -/
theorem Emits.matches_eval (hcall : CallsMatch p call call') {n n' : Nat} {e : Expr}
    {is : List Instr} {v : Value} (h : Emits S n e is v n') {a : Activation}
    (hS : Represents p n S ρ a) :
    Matches (Computed n a n' v) (e.eval p call ρ) (runInstrs call' a is) := by
  cases h with
  | literal _ c pos =>
    rw [Expr.eval]
    exact .pure ⟨.same (Nat.le_refl n) a, .ofLiteral n a c⟩
  | var hs hty =>
    cases hS _ _ hs with
    | @slot k i x hk hvar htemp hmem =>
      cases hty
      rw [Expr.eval, hvar]
      have hptr : a.get ⟨.temp k, .ptr x.ty.lower⟩ = .ok (.ptr i) := by
        simp [Activation.get, htemp]
      refine Matches.define ?_ n
      simp only [Operation.run, Activation.load_eq hptr hmem]
      exact .pure ⟨rfl, rfl⟩
  | @binary _ n₁ n₂ n₃ n₄ op l r pos is₁ is₂ is₃ is₄ v₁ v₂ w₁ w₂ ty hl hr hty hcl hcr =>
    simp only [Expr.eval, IR.runInstrs_append, bind_assoc]
    refine (hl.matches_eval hcall hS).seq fun x a₁ hx => ?_
    refine (hr.matches_eval hcall (hS.grows hx.grows)).seq fun y a₂ hy => ?_
    rw [hx.held.ty, hy.held.ty, ← Operator.lower_common] at hty
    subst hty
    obtain ⟨a₃, hrun₃, hw₁⟩ := hcl.run (hx.held.grows hy.grows) call'
    obtain ⟨a₄, hrun₄, hw₂⟩ := hcr.run (hy.held.grows hw₁.grows) call'
    have hg := ((hx.grows.trans hy.grows).trans hw₁.grows).trans hw₂.grows
    rw [hrun₃, pure_bind, hrun₄, pure_bind]
    refine (Matches.define ?_ n₄).mono fun z a' hz => hz.after hg
    exact op.matches_operation (Val.ty_convert x _) (Val.ty_convert y _)
      (hw₁.held.grows hw₂.grows).get hw₂.held.get hw₁.held.ty
  | call hs hret ha =>
    rw [Expr.eval, IR.runInstrs_concat]
    obtain ⟨ret, hsig, hinvoke⟩ := hcall.invoke hS hs fun tys htys => ha.matches_evals hcall htys hS
    refine hinvoke.seq fun x r hx => ?_
    obtain ⟨⟨hx, hty⟩, hg⟩ := hx
    cases x with
    | none =>
      subst hty
      rw [hsig] at hret
      cases hret
    | some z =>
      subst hty
      rw [hsig, ← hx]
      exact .pure ((Computed.withTemp _ r.2 z).after hg)

/-- The code of arguments leaves their values in the types of the parameters. -/
theorem EmitsAll.matches_evals (hcall : CallsMatch p call call') {n n' : Nat} {es : List Expr}
    {tys : List Ty} {tys' : List IR.Ty} {is : List Instr} {vs : List Value}
    (h : EmitsAll S n es tys' is vs n') (htys : tys' = tys.map Ty.lower) {a : Activation}
    (hS : Represents p n S ρ a) :
    Matches (fun xs a' => Grows n a n' a' ∧ List.Forall₂ (Held n' a') vs xs ∧
      xs.map Val.ty = tys) (Expr.evals p call ρ es tys) (runInstrs call' a is) := by
  cases h with
  | nil =>
    obtain rfl := List.map_eq_nil_iff.mp htys.symm
    rw [Expr.evals]
    exact .pure ⟨.same (Nat.le_refl n) a, .nil, rfl⟩
  | cons he hc hes =>
    cases tys with
    | nil => cases htys
    | cons ty tys =>
      obtain ⟨rfl, rfl⟩ := List.cons.inj htys
      simp only [Expr.evals, IR.runInstrs_append, bind_assoc]
      refine (he.matches_eval hcall hS).seq fun x a₁ hx => ?_
      obtain ⟨a₂, hrun, hw⟩ := hc.run hx.held call'
      have hg := hx.grows.trans hw.grows
      rw [hrun, pure_bind, ← bind_pure (runInstrs call' a₂ _)]
      refine (hes.matches_evals hcall rfl (hS.grows hg)).seq fun xs a₃ hxs => ?_
      obtain ⟨hg', hheld, htys⟩ := hxs
      exact .pure ⟨hg.trans hg', .cons (hw.held.grows hg') hheld, by simp [htys]⟩

end

end Expressions

/-! ## Statements -/

/-- What follows the end of a statement, if the function does not end with it. -/
def Control.andThen (k : Scopes Val → Eval (Option Val)) : Control → Eval (Option Val)
  | .goes ρ => k ρ
  | .returned v => return v

section Statements

variable {p : Program} {call : String → List Val → Eval (Option Val)}
  {call' : String → List Datum → Run (Option Datum)} {ret : Option Ty}
  {k : Scopes Val → Eval (Option Val)} {ρ : Scopes Val}

/-- Without a type an assignment keeps that of the value. -/
theorem Expr.exec_assign (name : String) (ty : Option Ty) (e : Expr) (pos : Option Position) :
    (Expr.assign name ty e pos).exec p call ret ρ = e.eval p call ρ >>= fun x =>
      pure (.goes (ρ.insert name (x.convert (ty.getD x.ty)))) := by
  rw [Expr.exec]
  refine congrArg _ (funext fun x => ?_)
  cases ty with
  | none => rw [Option.getD_none, Val.convert_ty]
  | some ty => rfl

theorem Stmt.evals_expr (e : Expr) (ss : List Stmt) :
    (Stmt.evals p call ret ρ (.expr e :: ss) >>= (·.andThen k)) =
      e.exec p call ret ρ >>=
        (·.andThen fun ρ => Stmt.evals p call ret ρ ss >>= (·.andThen k)) := by
  simp only [Stmt.evals, Stmt.eval, bind_assoc]
  refine congrArg _ (funext fun c => ?_)
  cases c with
  | goes => rfl
  | returned => exact pure_bind _ _

/-- Behind a conditional the variables are the same as before. -/
theorem Stmt.evals_branch (c : Conditional) (ss : List Stmt) :
    (Stmt.evals p call ret ρ (.branch c :: ss) >>= (·.andThen k)) =
      c.eval p call ret ρ >>=
        (·.andThen fun _ => Stmt.evals p call ret ρ ss >>= (·.andThen k)) := by
  simp only [Stmt.evals, Stmt.eval, bind_assoc]
  refine congrArg _ (funext fun c => ?_)
  cases c with
  | goes => simp only [pure_bind, Control.andThen]
  | returned => simp only [pure_bind, Control.andThen]

variable {S : Scopes Binding} {n : Nat} {a : Activation} {k' : Activation → Run (Option Datum)}

/-- A call as a statement. -/
theorem EmitsAll.matches_exec (hcall : CallsMatch p call call') (hS : Represents p n S ρ a)
    {name : String} {sig : IR.Signature} {args : List Expr} {is : List Instr} {vs : List Value}
    {n₁ n' : Nat} (hs : S.lookup? name = some (.function sig))
    (ha : EmitsAll S n args sig.params is vs n₁) (hle : n₁ ≤ n') {result : Option Value}
    (hset : ∀ a d, Grows n₁ a n' (a.set result d)) (pos : Option Position) :
    Matches (fun c a' => c = .goes ρ ∧ Grows n a n' a')
      ((Expr.call name args pos).exec p call ret ρ)
      (runInstrs call' a (is ++ [⟨result, .call sig.name sig.ret vs⟩])) := by
  obtain ⟨ty, -, hinvoke⟩ := hcall.invoke hS hs fun tys htys => ha.matches_evals hcall htys hS
  rw [Expr.exec, IR.runInstrs_concat]
  refine hinvoke.seq fun x r hx => .pure ⟨rfl, hx.2.trans ?_⟩
  cases r.1 with
  | none => exact .same hle r.2
  | some d => exact hset r.2 d

/-- An expression as a statement. -/
theorem Emits.matches_exec (hcall : CallsMatch p call call') (hS : Represents p n S ρ a) {e : Expr}
    {is : List Instr} {v : Value} {n' : Nat} (h : Emits S n e is v n') :
    Matches (fun c a' => c = .goes ρ ∧ Grows n a n' a') (e.exec p call ret ρ)
      (runInstrs call' a is) := by
  have heval := h.matches_eval hcall hS
  cases h with
  | literal | var | binary =>
    rw [Expr.exec, ← bind_pure (runInstrs call' a _)]
    · exact heval.seq fun x a' hx => .pure ⟨rfl, hx.grows⟩
    all_goals simp
  | call hs hret ha =>
    exact ha.matches_exec hcall hS hs (Nat.le_succ _) (fun a d => .withTemp _ a d) _

/-- A conditional, given how its cases go on. -/
theorem Emits.matches_guard (hcall : CallsMatch p call call') (hS : Represents p n S ρ a)
    {guard : Expr} {is is' : List Instr} {v c : Value} {n₁ n₂ : Nat} {g : Flow}
    (he : Emits S n guard is v n₁) (hc : Casts n₁ v (Ty.lower .bool) is' c n₂)
    {x y : Eval Control} {f : Control → Eval (Option Val)} {x' y' : Activation → Run (Option Datum)}
    (hg : ∀ a b, a.get c = .ok (.bool b) → g.run call' k' a = if b then x' a else y' a)
    (hx : ∀ a', Grows n a n₂ a' → Matches (Val.Returned ret) (x >>= f) (x' a'))
    (hy : ∀ a', Grows n a n₂ a' → Matches (Val.Returned ret) (y >>= f) (y' a')) :
    Matches (Val.Returned ret)
      (guard.eval p call ρ >>= fun v => (if v.isTrue then x else y) >>= f)
      ((Flow.emits (is ++ is') g).run call' k' a) := by
  rw [Flow.run_emits, IR.runInstrs_append, bind_assoc]
  refine (he.matches_eval hcall hS).seq fun z a₁ hz => ?_
  obtain ⟨a₂, hrun, hw⟩ := hc.run hz.held call'
  have hgrows := hz.grows.trans hw.grows
  rw [hrun, pure_bind, hg a₂ z.isTrue hw.held.get]
  split
  · exact hx a₂ hgrows
  · exact hy a₂ hgrows

/-- The flow of statements comes to what the statements come to, if what follows does. -/
theorem Lowers.matches_evals (hcall : CallsMatch p call call') {ty : IR.Ty} {S S' : Scopes Binding}
    {n n' : Nat} {ss : List Stmt} {g : Flow} (h : Lowers ty S n ss g S' n')
    (hty : ty = ret.elim .void Ty.lower) {ρ : Scopes Val} {a : Activation}
    (hS : Represents p n S ρ a)
    (hk : ∀ ρ' a', Grows n a n' a' → Represents p n' S' ρ' a' →
      Matches (Val.Returned ret) (k ρ') (k' a')) :
    Matches (Val.Returned ret) (Stmt.evals p call ret ρ ss >>= (·.andThen k))
      (g.run call' k' a) := by
  induction h generalizing ρ a k k' with
  | nil S n =>
    rw [Stmt.evals, pure_bind]
    exact hk ρ a (.same (Nat.le_refl n) a) hS
  | value he hss ih =>
    rw [Stmt.evals_expr, Flow.run_emits]
    refine (he.matches_exec hcall hS).seq ?_
    rintro _ a₁ ⟨rfl, hg⟩
    exact ih (hS.grows hg) fun ρ' a' hg' hS' => hk ρ' a' (hg.trans hg') hS'
  | voidCall hs hret ha hss ih =>
    rw [Stmt.evals_expr, Flow.run_emits]
    refine (ha.matches_exec hcall hS hs (Nat.le_refl _) ?_ _).seq ?_
    · exact fun a d => .same (Nat.le_refl _) a
    rintro _ a₁ ⟨rfl, hg⟩
    exact ih (hS.grows hg) fun ρ' a' hg' hS' => hk ρ' a' (hg.trans hg') hS'
  | @assign _ _ _ _ _ _ name ty' e pos _ _ _ v w _ he hc hss ih =>
    rw [Stmt.evals_expr, Expr.exec_assign, Flow.run_emits, IR.runInstrs_append, bind_assoc,
      bind_assoc]
    refine (he.matches_eval hcall hS).seq fun x a₁ hx => ?_
    have hlower : ty'.elim v.ty Ty.lower = (ty'.getD x.ty).lower := by
      cases ty' with
      | none => exact hx.held.ty
      | some ty' => rfl
    rw [hlower] at hc
    obtain ⟨a₂, hrun, hw⟩ := hc.run hx.held call'
    have hg := hx.grows.trans hw.grows
    obtain ⟨a₃, hbind, hg₃, hS₃⟩ := (hS.grows hg).bind hw.held name call'
    simp only [hrun, pure_bind, Flow.run, hbind]
    exact ih hS₃ fun ρ' a' hg' hS' => hk ρ' a' ((hg.trans hg₃).trans hg') hS'
  | returnNothing hret =>
    rw [hty, Ty.isVoid_elim, Option.isNone_iff_eq_none] at hret
    subst hret
    rw [Stmt.evals_expr]
    exact .pure ⟨rfl, rfl⟩
  | returnValue hret he hc =>
    rw [hty, Ty.isVoid_elim, ← Bool.not_eq_true, Option.isNone_iff_eq_none] at hret
    obtain ⟨ty', rfl⟩ := Option.ne_none_iff_exists'.mp hret
    subst hty
    rw [Stmt.evals_expr, Flow.run_emits, IR.runInstrs_append, bind_assoc, Expr.exec]
    simp only [Eval.ofOption, pure_bind, bind_assoc]
    refine (he.matches_eval hcall hS).seq fun x a₁ hx => ?_
    obtain ⟨a₂, hrun, hw⟩ := hc.run hx.held call'
    simp only [hrun, pure_bind, Flow.run, hw.held.get]
    exact .pure ⟨rfl, by simp⟩
  | when he hc hyes hss ihy ih =>
    have hrest a₁ (hg : Grows _ a _ a₁) :=
      ih (hS.grows hg) fun ρ' a' hg' hS' => hk ρ' a' (hg.trans hg') hS'
    rw [Stmt.evals_branch, Conditional.eval, bind_assoc]
    refine he.matches_guard hcall hS hc (fun a b hb => Flow.run_when hb _ _) ?_ ?_
    · intro a₁ hg
      exact ihy (hS.grows hg).push fun _ a₂ hg' _ => hrest a₂ (hg.trans hg')
    · intro a₁ hg
      exact hrest a₁ (hg.trans (.same hyes.le a₁))
  | either he hc hyes hno hss ihy ihn ih =>
    have hrest a₁ (hg : Grows _ a _ a₁) :=
      ih (hS.grows hg) fun ρ' a' hg' hS' => hk ρ' a' (hg.trans hg') hS'
    rw [Stmt.evals_branch, Conditional.eval, bind_assoc]
    refine he.matches_guard hcall hS hc (fun a b hb => Flow.run_either hb _ _ _ _) ?_ ?_
    · intro a₁ hg
      refine ihy (hS.grows hg).push fun _ a₂ hg' _ => ?_
      exact hrest a₂ ((hg.trans hg').trans (.same hno.le a₂))
    · intro a₁ hg
      have hg := hg.trans (.same hyes.le a₁)
      exact ihn (hS.grows hg).push fun _ a₂ hg' _ => hrest a₂ (hg.trans hg')
  | chain he hc hyes hno hss ihy ihn ih =>
    have hrest a₁ (hg : Grows _ a _ a₁) :=
      ih (hS.grows hg) fun ρ' a' hg' hS' => hk ρ' a' (hg.trans hg') hS'
    rw [Stmt.evals_branch, Conditional.eval, bind_assoc]
    refine he.matches_guard hcall hS hc (fun a b hb => Flow.run_either hb _ _ _ _) ?_ ?_
    · intro a₁ hg
      refine ihy (hS.grows hg).push fun _ a₂ hg' _ => ?_
      exact hrest a₂ ((hg.trans hg').trans (.same hno.le a₂))
    · intro a₁ hg
      have hg := hg.trans (.same hyes.le a₁)
      have hnext := ihn (hS.grows hg) fun _ a₂ hg' _ => hrest a₂ (hg.trans hg')
      rwa [Stmt.evals_branch] at hnext

end Statements

end ProcLang

import ProcLang.Proofs.IR.History
import ProcLang.Proofs.Lowering.Bodies
import ProcLang.Proofs.Lowering.Faults

/-!
# Bodies that cannot be lowered to their end

Lowering can fail anywhere in a body, with scopes open and blocks begun. What has been built by then
still has a history: no instruction refers to a temporary that has not been defined. And the scopes
that were open when an action began are still open when it fails.

## Main definitions

* `Frame.Sound` — the code of a frame has a history and its variables have storage.
* `Frame.Advances` — what an action that succeeds keeps.
* `Lower.Traced` — actions that keep a frame sound, whether they succeed or fail.

## Main statements

* `Lower.body_traced` — the body of a function is such an action.
-/
namespace ProcLang

open IR (Value)

/-! ## Operations -/

/-- A conversion refers to the value and, if it asks for a truth value, to a constant. -/
theorem IR.Function.evolves_of_cast {f f' : IR.Function} {b : Nat} {v w : Value} {ty : IR.Ty}
    (h : f.cast b v ty = .ok (w, f')) (hv : f.Knows v) : f.Evolves f' ∧ f'.Knows w := by
  obtain ⟨-, rfl, rfl⟩ | ⟨-, hfold, rfl⟩ | ⟨-, -, h⟩ := cast_ok h
  · exact ⟨.refl f', hv⟩
  · obtain ⟨c, -, ⟨-, rfl⟩ | ⟨-, rfl⟩ | ⟨-, rfl⟩⟩ := IR.Value.fold_eq_some hfold <;>
      exact ⟨.refl f', f'.knows_const rfl⟩
  · obtain ⟨zero, -, hz, hc⟩ | ⟨op, -, hd⟩ := h
    · have hzero : f.Knows zero := by
        unfold zero? at hz
        split at hz
        · cases hz
          exact f.knows_const rfl
        · obtain ⟨-, hz⟩ := Option.ite_none_right_eq_some.mp hz
          cases hz
          exact f.knows_const rfl
      exact evolves_of_compare hc hv hzero
    · exact evolves_of_define hd (by simpa [IR.Operation.operands] using hv)

theorem Operator.evolves_of_emit {op : Operator} {l r v : Value} {f f' : IR.Function} {b : Nat}
    (h : op.emit l r f b = .ok (v, f')) (hl : f.Knows l) (hr : f.Knows r) :
    f.Evolves f' ∧ f'.Knows v := by
  refine IR.Function.evolves_of_define (Lower.emit_ok h) ?_
  cases op <;> simpa [operation, IR.Operation.operands] using ⟨hl, hr⟩

/-! ## Frames -/

namespace Frame

/-- The code has a history, and the storage of every variable in scope has been made. -/
structure Sound (F : Frame) : Prop where
  history : ∃ log, F.code.History log
  slots : ∀ scope ∈ F.scopes.all, ∀ x ∈ scope, ∀ v, x.2 = .slot v → F.code.Knows v

/-- A sound frame `F'` with the scopes of `F`, in which all is defined that is in `F`. -/
structure Advances (F F' : Frame) : Prop where
  sound : F'.Sound
  knows : ∀ {v}, F.code.Knows v → F'.code.Knows v
  depth : F'.scopes.depth = F.scopes.depth

variable {F F' F'' : Frame}

theorem Sound.knows_slot (h : F.Sound) {name : String} {v : Value}
    (hv : F.scopes.lookup? name = some (.slot v)) : F.code.Knows v := by
  obtain ⟨scope, hscope, hl⟩ := List.exists_of_findSome?_eq_some hv
  obtain ⟨l, l', heq, -⟩ := List.lookup_eq_some_iff.mp hl
  exact h.slots scope hscope (name, .slot v) (by simp [heq]) v rfl

theorem Sound.evolves (h : F.Sound) {code : IR.Function} (hc : F.code.Evolves code) :
    F.Advances { F with code := code } := by
  obtain ⟨log, hlog⟩ := h.history
  exact ⟨⟨hc.history hlog, fun scope hs x hx v hv => hc.knows (h.slots scope hs x hx v hv)⟩,
    hc.knows, rfl⟩

theorem Sound.enter (h : F.Sound) (b : Nat) : F.Advances { F with block := b } :=
  ⟨⟨h.history, h.slots⟩, id, rfl⟩

theorem Sound.refl (h : F.Sound) : F.Advances F := ⟨h, id, rfl⟩

theorem Sound.push (h : F.Sound) (b : Nat) : Sound ⟨F.code, F.scopes.push, b⟩ := by
  refine ⟨h.history, List.forall_mem_cons.mpr ⟨?_, h.slots⟩⟩
  intro x hx
  cases hx

theorem Sound.pop (h : F.Sound) : Sound { F with scopes := F.scopes.pop } := by
  refine ⟨h.history, fun scope hs => h.slots scope ?_⟩
  rcases List.mem_append.mp hs with hs | hs
  · exact List.mem_append_left _ (List.mem_of_mem_tail hs)
  · exact List.mem_append_right _ hs

theorem Sound.insert (h : F.Sound) {v : Value} (hv : F.code.Knows v) (name : String) :
    Sound { F with scopes := F.scopes.insert name (.slot v) } := by
  have hnew : ∀ scope ∈ F.scopes.all, ∀ x ∈ (name, Binding.slot v) :: scope, ∀ w, x.2 = .slot w →
      F.code.Knows w := by
    intro scope hs x hx w hw
    rcases List.mem_cons.mp hx with rfl | hx
    · cases hw
      exact hv
    · exact h.slots scope hs x hx w hw
  refine ⟨h.history, ?_⟩
  obtain ⟨code, ⟨inner, global⟩, block⟩ := F
  cases inner with
  | nil =>
    intro scope hs
    obtain rfl := List.mem_singleton.mp hs
    exact hnew global List.mem_cons_self
  | cons innermost inner =>
    refine List.forall_mem_cons.mpr ⟨hnew innermost List.mem_cons_self, ?_⟩
    exact fun scope hs => h.slots scope (List.mem_cons_of_mem _ hs)

theorem Advances.trans (h : F.Advances F') (h' : F'.Advances F'') : F.Advances F'' :=
  ⟨h'.sound, fun hv => h'.knows (h.knows hv), h'.depth.trans h.depth⟩

end Frame

/-! ## Actions -/

namespace Lower

variable {α β : Type} {F : Frame}

/-- Whether the action succeeds or fails in `F`, it leaves a sound frame. It closes no scope that
was open in `F`, and if it succeeds none is left that was not; `Q` then holds of the result and the
code. -/
structure Traced (F : Frame) (act : Lower α) (Q : α → IR.Function → Prop) : Prop where
  ok : ∀ {a F'}, act F = .ok a F' → F.Advances F' ∧ Q a F'.code
  error : ∀ {e F'}, act F = .error e F' → F'.Sound ∧ F.scopes.depth ≤ F'.scopes.depth

namespace Traced

variable {Q : α → IR.Function → Prop} {R : β → IR.Function → Prop}

theorem pure (hF : F.Sound) {a : α} (h : Q a F.code) : Traced F (pure a) Q where
  ok := by
    intro b F' heq
    obtain ⟨rfl, rfl⟩ := pure_eq_ok.mp heq
    exact ⟨hF.refl, h⟩
  error := by
    intro e F' heq
    cases heq

theorem seq {x : Lower β} {k : β → Lower α} (hx : Traced F x R)
    (hk : ∀ b F₁, F.Advances F₁ → R b F₁.code → Traced F₁ (k b) Q) : Traced F (x >>= k) Q where
  ok := by
    intro a F' h
    obtain ⟨b, F₁, h₁, h₂⟩ := seq_eq_ok.mp h
    obtain ⟨hadv, hb⟩ := hx.ok h₁
    obtain ⟨hadv', ha⟩ := (hk b F₁ hadv hb).ok h₂
    exact ⟨hadv.trans hadv', ha⟩
  error := by
    intro e F' h
    obtain h | ⟨b, F₁, h₁, h₂⟩ := seq_eq_error.mp h
    · exact hx.error h
    · obtain ⟨hadv, hb⟩ := hx.ok h₁
      obtain ⟨hsound, hdepth⟩ := (hk b F₁ hadv hb).error h₂
      exact ⟨hsound, by rw [← hadv.depth]; exact hdepth⟩

theorem fail (hF : F.Sound) (cause : LoweringCause) (pos : Option Position) :
    Traced F (Lower.fail cause pos) Q where
  ok := by
    intro a F' h
    exact (fail_eq_ok.mp h).elim
  error := by
    intro e F' h
    cases h
    exact ⟨hF, Nat.le_refl _⟩

theorem build (hF : F.Sound) {pos : Option Position}
    {op : IR.Function → Nat → Except IR.Error (α × IR.Function)}
    (h : ∀ {a code}, op F.code F.block = .ok (a, code) → F.code.Evolves code ∧ Q a code) :
    Traced F (Lower.build pos op) Q where
  ok := by
    intro a F' hb
    obtain ⟨code, hop, rfl⟩ := build_eq_ok.mp hb
    exact ⟨hF.evolves (h hop).1, (h hop).2⟩
  error := by
    intro e F' hb
    unfold Lower.build at hb
    cases hop : op F.code F.block with
    | ok r => simp [hop] at hb
    | error e' =>
      simp only [hop, EStateM.Result.error.injEq] at hb
      exact hb.2 ▸ ⟨hF, Nat.le_refl _⟩

theorem performAt (hF : F.Sound) {pos : Option Position} {b : Nat}
    {op : IR.Function → Nat → Except IR.Error IR.Function}
    (h : ∀ {code}, op F.code b = .ok code → F.code.Evolves code) :
    Traced F (Lower.performAt pos b op) (fun _ _ => True) where
  ok := by
    intro a F' hb
    obtain ⟨code, hop, rfl⟩ := performAt_eq_ok.mp hb
    exact ⟨hF.evolves (h hop), trivial⟩
  error := by
    intro e F' hb
    unfold Lower.performAt at hb
    cases hop : op F.code b with
    | ok r => simp [hop] at hb
    | error e' =>
      simp only [hop, EStateM.Result.error.injEq] at hb
      exact hb.2 ▸ ⟨hF, Nat.le_refl _⟩

/-- An action that starts by looking at the frame. -/
theorem get_seq {k : Frame → Lower α} (h : Traced F (k F) Q) : Traced F (get >>= k) Q where
  ok := h.ok
  error := h.error

theorem perform (hF : F.Sound) {pos : Option Position}
    {op : IR.Function → Nat → Except IR.Error IR.Function}
    (h : ∀ {code}, op F.code F.block = .ok code → F.code.Evolves code) :
    Traced F (Lower.perform pos op) (fun _ _ => True) := get_seq (performAt hF h)

/-- An action that looks a name up. -/
theorem lookup_seq {name : String} {k : Option Binding → Lower α}
    (h : Traced F (k (F.scopes.lookup? name)) Q) : Traced F (lookup? name >>= k) Q where
  ok := h.ok
  error := h.error

/-- An action that only changes the frame. -/
theorem modify {g : Frame → Frame} (h : F.Advances (g F)) :
    Traced F (modify g : Lower Unit) (fun _ _ => True) where
  ok := by
    intro u F' heq
    obtain rfl := modify_eq_ok.mp heq
    exact ⟨h, trivial⟩
  error := by
    intro e F' heq
    cases heq

theorem enter (hF : F.Sound) (b : Nat) : Traced F (Lower.enter b) (fun _ _ => True) :=
  modify (hF.enter b)

theorem addBlock (hF : F.Sound) (label : String) :
    Traced F (Lower.addBlock label) (fun _ _ => True) where
  ok := by
    intro b F' h
    cases h
    exact ⟨hF.evolves (F.code.evolves_addBlock label), trivial⟩
  error := by
    intro e F' h
    cases h

theorem cast (hF : F.Sound) {pos : Option Position} {v : Value} {ty : IR.Ty}
    (hv : F.code.Knows v) : Traced F (Lower.cast pos v ty) (fun w f => f.Knows w) :=
  build hF fun h => IR.Function.evolves_of_cast h hv

/-- Whether a block has ended. -/
theorem isClosed (hF : F.Sound) {pos : Option Position} (b : Nat → Nat) :
    Traced F (Lower.build pos fun code block => (code.isClosed (b block)).map (·, code))
      (fun _ _ => True) := by
  refine build hF fun h => ?_
  obtain ⟨block, -, -, rfl⟩ := isClosed_ok h
  exact ⟨.refl F.code, trivial⟩

theorem branchIfOpen (hF : F.Sound) {pos : Option Position} {b target : Nat} :
    Traced F (Lower.branchIfOpen pos b target) (fun _ _ => True) := by
  refine (isClosed hF fun _ => b).seq fun closed F₁ h₁ _ => ?_
  cases closed with
  | true => exact .pure h₁.sound trivial
  | false =>
    rw [if_neg (by simp)]
    exact performAt h₁.sound IR.Function.evolves_of_br

end Traced

/-! ## Expressions -/

theorem readVar_traced (hF : F.Sound) (name : String) (pos : Option Position) :
    Traced F (readVar name pos) (fun v f => f.Knows v) := by
  refine Traced.lookup_seq ?_
  cases hb : F.scopes.lookup? name with
  | none => exact .fail hF _ _
  | some b =>
    cases b with
    | function sig => exact .fail hF _ _
    | slot storage =>
      exact .build hF fun h => IR.Function.evolves_of_load h (hF.knows_slot hb)

theorem callee_traced (hF : F.Sound) (name : String) (count : Nat) (pos : Option Position) :
    Traced F (callee name count pos) (fun _ _ => True) := by
  refine Traced.lookup_seq ?_
  cases F.scopes.lookup? name with
  | none => exact .fail hF _ _
  | some b =>
    cases b with
    | slot storage => exact .fail hF _ _
    | function sig =>
      dsimp only
      split
      · exact .pure hF trivial
      · exact .fail hF _ _

theorem call_traced (hF : F.Sound) (name : String) (count : Nat) (pos : Option Position)
    {arguments : List IR.Ty → Lower (List Value)} (ha : ∀ (F₁ : Frame) (tys : List IR.Ty),
      F₁.Sound → Traced F₁ (arguments tys) (fun vs f => ∀ v ∈ vs, f.Knows v)) :
    Traced F (call name count pos arguments) (fun r f => ∀ v ∈ r, f.Knows v) := by
  refine (callee_traced hF name count pos).seq fun sig F₁ h₁ _ => ?_
  refine (ha F₁ sig.params h₁.sound).seq fun vs F₂ h₂ hvs => ?_
  exact .build h₂.sound fun h => IR.Function.evolves_of_call h hvs

theorem binary_traced (hF : F.Sound) (op : Operator) {l r : Value} (hl : F.code.Knows l)
    (hr : F.code.Knows r) (pos : Option Position) :
    Traced F (binary op l r pos) (fun v f => f.Knows v) := by
  refine (Traced.cast hF hl).seq fun l' F₁ h₁ hl' => ?_
  refine (Traced.cast h₁.sound (h₁.knows hr)).seq fun r' F₂ h₂ hr' => ?_
  exact .build h₂.sound fun h => Operator.evolves_of_emit h (h₂.knows hl') hr'

mutual

theorem expr_traced (e : Expr) {F : Frame} (hF : F.Sound) :
    Traced F (expr e) (fun v f => f.Knows v) := by
  match e with
  | .literal c pos =>
    refine .pure hF ?_
    cases c <;> exact F.code.knows_const rfl
  | .var name pos => exact readVar_traced hF name pos
  | .binary op l r pos =>
    rw [expr]
    refine (expr_traced l hF).seq fun v F₁ h₁ hv => ?_
    refine (expr_traced r h₁.sound).seq fun w F₂ h₂ hw => ?_
    exact binary_traced h₂.sound op (h₂.knows hv) hw pos
  | .call name args pos =>
    rw [expr]
    refine (call_traced hF name args.length pos fun F₁ tys h₁ => exprs_traced args tys h₁).seq ?_
    intro r F₁ h₁ hr
    cases r with
    | none => exact .fail h₁.sound _ _
    | some v => exact .pure h₁.sound (hr v rfl)
  | .return _ _ | .assign _ _ _ _ => exact .fail hF _ _

theorem exprs_traced (es : List Expr) (tys : List IR.Ty) {F : Frame} (hF : F.Sound) :
    Traced F (exprs es tys) (fun vs f => ∀ v ∈ vs, f.Knows v) := by
  match es, tys with
  | e :: es, ty :: tys =>
    rw [exprs]
    refine (expr_traced e hF).seq fun v F₁ h₁ hv => ?_
    refine (Traced.cast h₁.sound hv).seq fun w F₂ h₂ hw => ?_
    refine (exprs_traced es tys h₂.sound).seq fun ws F₃ h₃ hws => ?_
    exact .pure h₃.sound (List.forall_mem_cons.mpr ⟨h₃.knows hw, hws⟩)
  | [], _ => exact .pure hF (by simp)
  | _ :: _, [] => exact .pure hF (by simp)

end

/-! ## Statements -/

theorem bind_traced (hF : F.Sound) (pos : Option Position) (name : String) {v : Value}
    (hv : F.code.Knows v) : Traced F (Lower.bind pos name v) (fun _ _ => True) := by
  have halloca : Traced F (build pos fun code block => code.alloca block v.ty)
      (fun storage f => f.Knows storage) :=
    .build hF fun h => IR.Function.evolves_of_define h (by simp [IR.Operation.operands])
  refine halloca.seq fun storage F₁ h₁ hs => ?_
  have hstore : Traced F₁ (perform pos fun code block => code.store block v storage)
      (fun _ _ => True) :=
    .perform h₁.sound fun h => IR.Function.evolves_of_store h (h₁.knows hv) hs
  refine hstore.seq fun _ F₂ h₂ _ => .modify ?_
  exact ⟨h₂.sound.insert (h₂.knows hs) name, id, by simp⟩

/-- Only the body itself can fail in its scope. -/
theorem error_of_inScope {b : Nat} {body : Lower Unit} {e : LoweringError} {F' : Frame}
    (h : inScope b body F = .error e F') : body ⟨F.code, F.scopes.push, b⟩ = .error e F' := by
  have hrun : inScope b body F = (body >>= fun _ => do
      modify fun frame => { frame with scopes := frame.scopes.pop }
      return (← get).block) ⟨F.code, F.scopes.push, b⟩ := rfl
  rw [hrun, seq_eq_error] at h
  obtain h | ⟨u, G, -, h⟩ := h
  · exact h
  · cases h

/-- A body in a scope of its own. -/
theorem inScope_traced {body : Lower Unit} {b : Nat}
    (h : Traced ⟨F.code, F.scopes.push, b⟩ body (fun _ _ => True)) :
    Traced F (inScope b body) (fun _ _ => True) where
  ok := by
    intro e F' hb
    obtain ⟨u, G, hG, rfl, rfl⟩ := inScope_eq_ok.mp hb
    obtain ⟨hadv, -⟩ := h.ok hG
    refine ⟨⟨hadv.sound.pop, hadv.knows, ?_⟩, trivial⟩
    have hdepth := hadv.depth
    simp only [Scopes.depth, Scopes.push, Scopes.pop, List.length_cons, List.length_tail]
      at hdepth ⊢
    omega
  error := by
    intro e F' hb
    obtain ⟨hsound, hdepth⟩ := h.error (error_of_inScope hb)
    rw [Scopes.depth_push] at hdepth
    exact ⟨hsound, by omega⟩

theorem assign_traced (hF : F.Sound) (name : String) (ty : Option Ty) (value : Expr)
    (pos : Option Position) : Traced F (assign name ty value pos) (fun _ _ => True) := by
  refine (expr_traced value hF).seq fun v F₁ h₁ hv => ?_
  cases ty with
  | none => exact bind_traced h₁.sound pos name hv
  | some ty =>
    exact (Traced.cast h₁.sound hv).seq fun w F₂ h₂ hw => bind_traced h₂.sound pos name hw

theorem return_traced (hF : F.Sound) (values : List Expr) (pos : Option Position) :
    Traced F («return» values pos) (fun _ _ => True) := by
  refine Traced.get_seq ?_
  cases values with
  | nil => exact .perform hF IR.Function.evolves_of_retVoid
  | cons first rest =>
    dsimp only
    split
    · exact .fail hF _ _
    · refine (expr_traced first hF).seq fun v F₁ h₁ hv => ?_
      refine (Traced.cast h₁.sound hv).seq fun w F₂ h₂ hw => ?_
      exact .perform h₂.sound fun h => IR.Function.evolves_of_retValue h hw

theorem exprStmt_traced (hF : F.Sound) (e : Expr) : Traced F (exprStmt e) (fun _ _ => True) := by
  cases e with
  | assign name ty value pos => exact assign_traced hF name ty value pos
  | «return» values pos => exact return_traced hF values pos
  | call name args pos =>
    refine (call_traced hF name args.length pos fun F₁ tys h₁ => exprs_traced args tys h₁).seq ?_
    exact fun _ _ h₁ _ => .pure h₁.sound trivial
  | literal | var | binary =>
    exact (expr_traced _ hF).seq fun _ _ h₁ _ => .pure h₁.sound trivial

mutual

theorem stmt_traced (s : Stmt) {F : Frame} (hF : F.Sound) :
    Traced F (stmt s) (fun _ _ => True) := by
  match s with
  | .expr e => exact exprStmt_traced hF e
  | .branch c =>
    rw [stmt]
    exact (conditional_traced c hF).seq fun _ _ h₁ _ => .pure h₁.sound trivial

theorem stmts_traced (ss : List Stmt) {F : Frame} (hF : F.Sound) :
    Traced F (stmts ss) (fun _ _ => True) := by
  match ss with
  | [] => exact .pure hF trivial
  | s :: ss =>
    rw [stmts]
    exact (stmt_traced s hF).seq fun _ _ h₁ _ => stmts_traced ss h₁.sound

theorem conditional_traced (c : Conditional) {F : Frame} (hF : F.Sound) :
    Traced F (conditional c) (fun _ _ => True) := by
  match c with
  | ⟨guard, body, other, pos⟩ =>
    rw [conditional]
    refine (expr_traced guard hF).seq fun v F₁ h₁ hv => ?_
    refine (Traced.cast h₁.sound hv).seq fun cond F₂ h₂ hcond => Traced.get_seq ?_
    refine (Traced.addBlock h₂.sound _).seq fun yes F₃ h₃ _ => ?_
    refine (inScope_traced (stmts_traced body (h₃.sound.push yes))).seq ?_
    intro yesEnd F₄ h₄ _
    refine (Traced.addBlock h₄.sound _).seq fun next F₅ h₅ _ => ?_
    refine (otherwise_traced other next pos h₅.sound).seq fun no F₆ h₆ _ => ?_
    -- The condition was computed before all that has been built since.
    have hcond₆ : F₆.code.Knows cond := h₆.knows (h₅.knows (h₄.knows (h₃.knows hcond)))
    refine (Traced.performAt h₆.sound fun h => IR.Function.evolves_of_condBr h hcond₆).seq ?_
    intro _ F₇ h₇ _
    refine (Traced.branchIfOpen h₇.sound).seq fun _ F₈ h₈ _ => ?_
    exact (Traced.enter h₈.sound next).seq fun _ _ h₉ _ => .pure h₉.sound trivial

theorem otherwise_traced (other : Otherwise) (next : Nat) (pos : Option Position) {F : Frame}
    (hF : F.Sound) : Traced F (otherwise next pos other) (fun _ _ => True) := by
  match other with
  | .nothing => exact .pure hF trivial
  | .block body =>
    rw [otherwise]
    refine (Traced.addBlock hF _).seq fun no F₁ h₁ _ => ?_
    refine (inScope_traced (stmts_traced body (h₁.sound.push no))).seq ?_
    intro noEnd F₂ h₂ _
    exact (Traced.branchIfOpen h₂.sound).seq fun _ _ h₃ _ => .pure h₃.sound trivial
  | .chain c =>
    rw [otherwise]
    refine (Traced.addBlock hF _).seq fun guard F₁ h₁ _ => ?_
    refine (Traced.enter h₁.sound guard).seq fun _ F₂ h₂ _ => ?_
    refine (conditional_traced c h₂.sound).seq fun inner F₃ h₃ _ => ?_
    exact (Traced.branchIfOpen h₃.sound).seq fun _ _ h₄ _ => .pure h₄.sound trivial

end

/-! ## Bodies -/

theorem params_traced (hF : F.Sound) (pos : Option Position) (ps : List (String × IR.Ty)) :
    Traced F (params pos ps) (fun _ _ => True) := by
  induction ps generalizing F with
  | nil => exact .pure hF trivial
  | cons p ps ih =>
    exact (bind_traced hF pos p.1 (F.code.knows_param p.1 p.2)).seq fun _ _ h₁ _ => ih h₁.sound

theorem finish_traced (hF : F.Sound) (pos : Option Position) :
    Traced F (finish pos) (fun _ _ => True) := by
  refine Traced.get_seq ((Traced.isClosed hF id).seq fun closed F₁ h₁ _ => ?_)
  cases closed with
  | true => exact .pure h₁.sound trivial
  | false =>
    rw [if_neg (by simp)]
    split
    · exact .perform h₁.sound IR.Function.evolves_of_retVoid
    · exact .perform h₁.sound fun h =>
        IR.Function.evolves_of_terminate h (by simp [IR.Terminator.operands])

/-- Lowering a body leaves a sound frame, wherever it stops. -/
theorem body_traced (hF : F.Sound) (d : Declaration) :
    Traced F (body d) (fun _ _ => True) := by
  refine Traced.get_seq ((params_traced hF d.pos F.code.params).seq fun _ F₁ h₁ _ => ?_)
  refine (stmts_traced d.body h₁.sound).seq fun _ F₂ h₂ _ => ?_
  exact finish_traced h₂.sound d.pos

end Lower
end ProcLang

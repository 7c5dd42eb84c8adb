import ProcLang.Proofs.Parsing.Layout

/-!
# Spelling out syntax

Every linked piece of syntax has a layout: operations are put into parentheses, statements on lines
of their own.

## Main statements

* `Expr.exists_renders`, `Stmt.exists_rendersAll`, `Header.exists_renders` — a layout exists.
-/
namespace ProcLang

/-! ## Headers -/

theorem Commas.exists {α : Type} {R : α → List Token → Prop} (hR : ∀ a, ∃ ts, R a ts) (a : α)
    (as : List α) : ∃ ts, Commas R (a :: as) ts := by
  induction as generalizing a with
  | nil =>
    obtain ⟨ts, h⟩ := hR a
    exact ⟨ts, .one h⟩
  | cons a' as ih =>
    obtain ⟨ts, h⟩ := hR a
    obtain ⟨us, hus⟩ := ih a'
    exact ⟨_, .cons default h hus⟩

theorem Header.exists_renders (params : List Param) (returns : List Ty) :
    ∃ ts, Header.Renders params returns ts := by
  have hp : ∃ ts, RendersParams params ts := by
    cases params with
    | nil => exact ⟨[], .nothing⟩
    | cons p ps =>
      have hparam : ∀ p : Param, ∃ ts, p.Renders ts := fun p => ⟨_, .mk p.name p.ty default default⟩
      obtain ⟨ts, h⟩ := Commas.exists hparam p ps
      exact ⟨ts, .listed h⟩
  have hr : ∃ ts, RendersReturns returns ts := by
    cases returns with
    | nil => exact ⟨[], .nothing⟩
    | cons ty tys =>
      have hreturn : ∀ ty : Ty, ∃ ts, ty.Renders ts := fun ty => ⟨_, .bare ty default⟩
      obtain ⟨ts, h⟩ := Commas.exists hreturn ty tys
      exact ⟨_, .behind default h⟩
  obtain ⟨ts, hts⟩ := hp
  obtain ⟨us, hus⟩ := hr
  exact ⟨ts ++ us, .mk hts hus⟩

/-! ## Expressions -/

theorem Operator.exists_level (op : Operator) : ∃ level : Level, op ∈ level.operators := by
  cases op with
  | lt | gt | eq => exact ⟨.comparison, by decide⟩
  | add | sub => exact ⟨.sum, by decide⟩
  | mul | fdiv | idiv => exact ⟨.product, by decide⟩

namespace Expr

theorem Renders.of_factor {e : Expr} {ts : List Token} (h : Renders .factor e ts)
    (level : Level) : Renders level e ts := by
  cases level with
  | comparison => exact .tighter (.tighter (.tighter h))
  | sum => exact .tighter (.tighter h)
  | product => exact .tighter h
  | factor => exact h

theorem Renders.comparison {level : Level} {e : Expr} {ts : List Token}
    (h : Renders level e ts) : Renders .comparison e ts := by
  cases level with
  | comparison => exact h
  | sum => exact .tighter h
  | product => exact .tighter (.tighter h)
  | factor => exact h.of_factor .comparison

theorem Renders.filter_eq {level : Level} {e : Expr} {ts : List Token} (h : Renders level e ts) :
    ts.filter (!·.isSymbol .lineBreak) = ts := by
  refine List.filter_eq_self.mpr fun t ht => ?_
  have hin := h.forall_inExpr t ht
  simp [Token.isSymbol_of_inExpr hin (show Symbol.inExpr .lineBreak = false from rfl)]

end Expr

section Exists

variable {arity? : String → Option Nat}

mutual

/-- An expression can be spelled with all of its operations in parentheses. -/
theorem Expr.exists_renders (e : Expr) (hl : e.Linked arity?) :
    ∃ e' ts, Expr.erase e' = e.erase ∧ Expr.Renders .factor e' ts := by
  match e with
  | .literal value _ => exact ⟨.literal value (some default), _, rfl, .literal value default⟩
  | .var name _ => exact ⟨.var name (some default), _, rfl, .var name default⟩
  | .binary op lhs rhs _ =>
    obtain ⟨lhs', ts, hlhs, hts⟩ := Expr.exists_renders lhs hl.1
    obtain ⟨rhs', us, hrhs, hus⟩ := Expr.exists_renders rhs hl.2
    obtain ⟨level, hop⟩ := op.exists_level
    have hop := Renders.binary default hop (hts.of_factor _) (hus.of_factor _)
    exact ⟨.binary op lhs' rhs' (some default), _, by simp [erase, hlhs, hrhs],
      .paren default default hop.comparison⟩
  | .call name args _ =>
    obtain ⟨args', ts, hargs, hts⟩ := Expr.exists_rendersAll args hl.2
    exact ⟨.call name args' (some default), _, by simp [erase, hargs],
      .call default default default hts⟩
  | .return _ _ | .assign _ _ _ _ => cases hl

theorem Expr.exists_rendersAll (es : List Expr) (hl : Expr.AllLinked arity? es) :
    ∃ es' ts, Expr.eraseAll es' = Expr.eraseAll es ∧ Expr.RendersAll es' ts := by
  match es with
  | [] => exact ⟨[], [], rfl, .nil⟩
  | e :: es =>
    obtain ⟨e', ts, he, hts⟩ := Expr.exists_renders e hl.1
    obtain ⟨es', us, hes, hus⟩ := Expr.exists_rendersAll es hl.2
    have herase : eraseAll (e' :: es') = eraseAll (e :: es) := by simp [eraseAll, he, hes]
    cases es' with
    | nil => exact ⟨[e'], ts, herase, .one (hts.of_factor _)⟩
    | cons e'' es'' => exact ⟨_, _, herase, .cons default (hts.of_factor _) hus⟩

end

/-! ## Statements -/

theorem Stmt.exists_rendersSimple (e : Expr) (hl : (Stmt.expr e).Linked arity?) :
    ∃ e' ts, Expr.erase e' = e.erase ∧ Stmt.RendersSimple e' ts := by
  have hvalue : ∀ e : Expr, e.Linked arity? →
      ∃ e' ts, e'.erase = e.erase ∧ Expr.Renders .comparison e' ts := by
    intro e hl
    obtain ⟨e', ts, he, hts⟩ := e.exists_renders hl
    exact ⟨e', ts, he, hts.of_factor _⟩
  cases e with
  | literal | var | binary | call =>
    obtain ⟨e', ts, he, hts⟩ := hvalue _ hl
    exact ⟨e', ts, he, .value hts⟩
  | «return» values _ =>
    obtain ⟨values', ts, hv, hts⟩ := Expr.exists_rendersAll values hl
    exact ⟨.return values' (some default), _, by simp [Expr.erase, hv], .return default hts⟩
  | assign name ty value _ =>
    obtain ⟨value', ts, hv, hts⟩ := hvalue value hl
    cases ty with
    | none =>
      exact ⟨.assign name none value' (some default), _, by simp [Expr.erase, hv],
        .assign name default default hts⟩
    | some ty =>
      exact ⟨.assign name (some ty) value' (some default), _, by simp [Expr.erase, hv],
        .declare ty name default default default (.inl rfl) hts⟩

/-- A line feed. -/
def Token.lineFeed : Token := ⟨.symbol .lineBreak, default⟩

theorem Token.isBreak_lineFeed : Token.lineFeed.isBreak = true := rfl

theorem Stmt.RendersAll.lineFeed {ss : List Stmt} {ts : List Token} (h : Stmt.RendersAll ss ts) :
    Stmt.RendersAll ss (.lineFeed :: ts) := by
  have hbreak : ∀ {gap : List Token}, (∀ t ∈ gap, t.isBreak = true) →
      ∀ t ∈ Token.lineFeed :: gap, t.isBreak = true := fun hg =>
    List.forall_mem_cons.mpr ⟨Token.isBreak_lineFeed, hg⟩
  cases h with
  | nil hg => exact .nil (hbreak hg)
  | cons hg h hus hss => exact .cons (hbreak hg) h hus hss

mutual

theorem Stmt.exists_renders (s : Stmt) (hl : s.Linked arity?) :
    ∃ s' ts, Stmt.erase s' = s.erase ∧ Stmt.Renders s' ts := by
  match s with
  | .expr e =>
    obtain ⟨e', ts, he, hts⟩ := Stmt.exists_rendersSimple e hl
    exact ⟨.expr e', ts, by simp [Stmt.erase, he], .simple hts⟩
  | .branch c =>
    obtain ⟨c', ts, hc, hts⟩ := Conditional.exists_renders c (by simpa [Stmt.Linked] using hl)
    exact ⟨.branch c', _, by simp [Stmt.erase, hc], .branch default hts⟩

theorem Stmt.exists_rendersAll (ss : List Stmt) (hl : Stmt.AllLinked arity? ss) :
    ∃ ss' ts, Stmt.eraseAll ss' = Stmt.eraseAll ss ∧ Stmt.RendersAll ss' ts := by
  match ss with
  | [] => exact ⟨[], [], rfl, .nil (by simp)⟩
  | s :: ss =>
    obtain ⟨s', ts, hs, hts⟩ := Stmt.exists_renders s hl.1
    obtain ⟨ss', us, hss, hus⟩ := Stmt.exists_rendersAll ss hl.2
    exact ⟨s' :: ss', _, by simp [Stmt.eraseAll, hs, hss],
      @Stmt.RendersAll.cons s' ss' [] ts _ (by simp) hts (by simp [Token.isBreak_lineFeed])
        hus.lineFeed⟩

theorem Conditional.exists_renders (c : Conditional) (hl : c.Linked arity?) :
    ∃ c' ts, Conditional.erase c' = c.erase ∧ Conditional.Renders default c' ts := by
  match c with
  | ⟨guard, body, other, _⟩ =>
    obtain ⟨hlg, hlb, hlo⟩ : guard.Linked arity? ∧ Stmt.AllLinked arity? body ∧
      other.Linked arity? := by simpa [Conditional.Linked] using hl
    obtain ⟨guard', gs, hg, hgs⟩ := guard.exists_renders hlg
    obtain ⟨body', ts, hb, hts⟩ := Stmt.exists_rendersAll body hlb
    obtain ⟨other', us, ho, hus⟩ := Otherwise.exists_renders other hlo
    refine ⟨⟨guard', body', other', some default⟩, _, by simp [Conditional.erase, hg, hb, ho],
      @Conditional.Renders.mk _ _ _ gs _ _ default default default ?_ hts hus⟩
    rw [hgs.filter_eq]
    exact hgs.of_factor _

theorem Otherwise.exists_renders (other : Otherwise) (hl : other.Linked arity?) :
    ∃ other' ts, Otherwise.erase other' = other.erase ∧ Otherwise.Renders other' ts := by
  match other with
  | .nothing => exact ⟨.nothing, [], rfl, .nothing⟩
  | .block body =>
    obtain ⟨body', ts, hb, hts⟩ :=
      Stmt.exists_rendersAll body (by simpa [Otherwise.Linked] using hl)
    exact ⟨.block body', _, by simp [Otherwise.erase, hb],
      @Otherwise.Renders.block [] _ _ (by simp) default default default hts⟩
  | .chain c =>
    obtain ⟨c', ts, hc, hts⟩ := Conditional.exists_renders c (by simpa [Otherwise.Linked] using hl)
    exact ⟨.chain c', _, by simp [Otherwise.erase, hc],
      @Otherwise.Renders.chain [] _ _ (by simp) default default hts⟩

end

end Exists

end ProcLang

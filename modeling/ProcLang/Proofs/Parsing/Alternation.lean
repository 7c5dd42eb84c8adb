import ProcLang.Proofs.Parsing.Soundness
import ProcLang.Proofs.Parsing.Spelling

/-!
# Operands and operators in turn

Reading an expression counts operands. It asks neither on which side of its operator an operand
stands nor between which parentheses, so `1 f(2)` is read like `f(1, 2)` and `1 2 +` like `1 + 2`.
`Expr.InTurn` asks both: operands and operators have to take turns, the name of a function has to be
followed by parentheses, and every pair of parentheses has to hold the commas that go with it.
Tokens that can be read spell what is read from them exactly if they pass.

## Main definitions

* `Turn` — what has to come next, and the commas that open parentheses wait for.
* `Expr.InTurn` — tokens that come as they have to.

## Main statements

* `Expr.inTurn_iff` — tokens come as they have to exactly if they spell a linked expression.
* `Expr.renders_iff_of_parse` — what is read is spelled by the tokens exactly if these come so.
-/
namespace ProcLang

/-- What has to come next in an expression. -/
inductive Turn.Due where
  | operand
  /-- An operand has ended. -/
  | operator
  /-- The parentheses of a function that takes so many arguments. -/
  | arguments (arity : Nat)
  /-- The end of parentheses that hold nothing. -/
  | closing
deriving DecidableEq

/-- A place in an expression: what has to come next, and how many commas have yet to come in each of
the open parentheses, the innermost first. -/
structure Turn where
  due : Turn.Due
  commas : List Nat
deriving DecidableEq

namespace Expr

/-- The place behind a token, if the token may stand there. -/
def follow (o : Outline) (turn : Turn) (t : Token) : Option Turn :=
  match turn.due with
  | .operand =>
    match t.kind with
    | .literal _ => some { turn with due := .operator }
    | .ident name =>
      match o.arity? name with
      | some n => some { turn with due := .arguments n }
      | none => some { turn with due := .operator }
    | .symbol .parenOpen => some ⟨.operand, 0 :: turn.commas⟩
    | _ => none
  | .operator =>
    match t.kind with
    | .symbol .comma =>
      match turn.commas with
      | (n + 1) :: commas => some ⟨.operand, n :: commas⟩
      | _ => none
    | .symbol .parenClose =>
      match turn.commas with
      | 0 :: commas => some ⟨.operator, commas⟩
      | _ => none
    | .symbol s => (Operator.ofSymbol? s).map fun _ => { turn with due := .operand }
    | _ => none
  | .arguments 0 => if t.isSymbol .parenOpen then some { turn with due := .closing } else none
  | .arguments (n + 1) =>
    if t.isSymbol .parenOpen then some ⟨.operand, n :: turn.commas⟩ else none
  | .closing => if t.isSymbol .parenClose then some { turn with due := .operator } else none

/-- The place behind tokens, if each of them may stand where it does. -/
def followAll (o : Outline) (turn : Turn) (ts : List Token) : Option Turn :=
  ts.foldlM (follow o) turn

/-- Operands and operators take turns, functions are followed by parentheses, and parentheses hold
one comma less than a function takes arguments, or none. -/
def InTurn (o : Outline) (ts : List Token) : Prop :=
  followAll o ⟨.operand, []⟩ ts = some ⟨.operator, []⟩

instance (o : Outline) (ts : List Token) : Decidable (InTurn o ts) :=
  inferInstanceAs (Decidable (_ = _))

variable {o : Outline} {turn turn' : Turn} {ts us : List Token}

@[simp] theorem followAll_nil (o : Outline) (turn : Turn) : followAll o turn [] = some turn := rfl

@[simp] theorem followAll_cons (o : Outline) (turn : Turn) (t : Token) (ts : List Token) :
    followAll o turn (t :: ts) = (follow o turn t).bind (followAll o · ts) := rfl

@[simp] theorem followAll_append (o : Outline) (turn : Turn) (ts us : List Token) :
    followAll o turn (ts ++ us) = (followAll o turn ts).bind (followAll o · us) :=
  List.foldlM_append

theorem follow_operator (op : Operator) (p : Position) (commas : List Nat) :
    follow o ⟨.operator, commas⟩ ⟨.symbol op.symbol, p⟩ = some ⟨.operand, commas⟩ := by
  cases op <;> rfl

/-! ## Spelled expressions -/

mutual

/-- The tokens of a linked expression come as they have to, wherever an operand is due. -/
theorem Renders.followAll {level : Level} {e : Expr} {ts : List Token} (h : Renders level e ts)
    (hl : e.Linked o.arity?) (commas : List Nat) :
    Expr.followAll o ⟨.operand, commas⟩ ts = some ⟨.operator, commas⟩ := by
  match h with
  | .literal value p => rfl
  | .var name p =>
    have hname : o.arity? name = none := by simpa [Linked] using hl
    simp [follow, hname]
  | @Renders.call name args us p l r ha =>
    obtain ⟨hname, hargs⟩ : o.arity? name = some args.length ∧ AllLinked o.arity? args := by
      simpa [Linked] using hl
    cases hlen : args.length with
    | zero =>
      obtain rfl := List.eq_nil_of_length_eq_zero hlen
      cases ha
      simp [follow, hname, Token.isSymbol]
    | succ n =>
      have hread := ha.followAll hargs hlen commas
      simp [follow, hname, hlen, Token.isSymbol, hread]
  | .paren l r h =>
    have hread := h.followAll hl (0 :: commas)
    simp [follow, hread]
  | .binary p hop hlhs hrhs =>
    obtain ⟨hl₁, hl₂⟩ := hl
    simp [hlhs.followAll hl₁, hrhs.followAll hl₂, follow_operator]
  | .tighter h => exact h.followAll hl commas

theorem RendersAll.followAll {args : List Expr} {ts : List Token} (h : RendersAll args ts)
    (hl : AllLinked o.arity? args) {n : Nat} (hn : args.length = n + 1) (commas : List Nat) :
    Expr.followAll o ⟨.operand, n :: commas⟩ ts = some ⟨.operator, 0 :: commas⟩ := by
  match h with
  | .nil => cases hn
  | .one h =>
    cases hn
    exact h.followAll hl.1 (0 :: commas)
  | .cons p h hes =>
    cases hn
    have hread := hes.followAll hl.2 rfl commas
    simp [h.followAll hl.1, follow, hread]

end

/-! ## Tokens that come as they have to -/

/-- The tokens spell a linked expression on a level of the grammar. -/
def Spelled (o : Outline) (level : Level) (ts : List Token) : Prop :=
  ∃ e, Renders level e ts ∧ e.Linked o.arity?

/-- An operand on a level of the grammar with an operator of the level behind it, or nothing. -/
inductive Left (o : Outline) (level : Level) : List Token → Prop where
  | nothing : Left o level []
  | operand {ts : List Token} {op : Operator} (p : Position) (h : Spelled o level ts)
      (hop : op ∈ level.operators) : Left o level (ts ++ [⟨.symbol op.symbol, p⟩])

/-- The right operand completes what stands on the left. -/
theorem Left.join {level : Level} (h : Left o level ts) (hr : Spelled o level.next us) :
    Spelled o level (ts ++ us) := by
  obtain ⟨e, hr, hl⟩ := hr
  cases h with
  | nothing => exact ⟨e, .tighter hr, hl⟩
  | operand p h hop =>
    obtain ⟨lhs, hlhs, hl'⟩ := h
    rw [List.append_assoc]
    exact ⟨_, .binary p hop hlhs hr, hl', hl⟩

/-- So many arguments, each with a comma behind it. -/
inductive Arguments (o : Outline) : Nat → List Token → Prop where
  | nil : Arguments o 0 []
  | snoc {n : Nat} {ts us : List Token} (p : Position) (h : Arguments o n ts)
      (harg : Spelled o .comparison us) :
      Arguments o (n + 1) (ts ++ us ++ [⟨.symbol .comma, p⟩])

/-- The last argument completes the others. -/
theorem Arguments.join {n : Nat} (h : Arguments o n ts) {arg : Expr} {args : List Expr}
    (hr : RendersAll (arg :: args) us) (hl : AllLinked o.arity? (arg :: args)) :
    ∃ args', RendersAll args' (ts ++ us) ∧ AllLinked o.arity? args' ∧
      args'.length = n + args.length + 1 := by
  induction h generalizing arg args us with
  | nil => exact ⟨arg :: args, hr, hl, by simp⟩
  | @snoc n ts ws p h harg ih =>
    obtain ⟨e, he, hle⟩ := harg
    obtain ⟨args', hr', hl', hlen⟩ := ih (.cons p he hr) ⟨hle, hl⟩
    refine ⟨args', by simpa using hr', hl', ?_⟩
    simp only [List.length_cons] at hlen
    omega

mutual

/-- The tokens lead to the start of an expression inside of parentheses that wait for the given
commas. -/
inductive Enters (o : Outline) : List Nat → List Token → Prop where
  | top : Enters o [] []
  | paren {commas : List Nat} {ts : List Token} (l : Position) (h : Awaits o commas ts) :
      Enters o (0 :: commas) (ts ++ [⟨.symbol .parenOpen, l⟩])
  | call {commas : List Nat} {ts us : List Token} {name : String} {n k : Nat} (p l : Position)
      (h : Awaits o commas ts) (hname : o.arity? name = some (k + n + 1))
      (hargs : Arguments o k us) :
      Enters o (n :: commas) (ts ++ ⟨.ident name, p⟩ :: ⟨.symbol .parenOpen, l⟩ :: us)

/-- The tokens lead to a place where an operand is due: on each level there may be a left operand
that waits for it. -/
inductive Awaits (o : Outline) : List Nat → List Token → Prop where
  | mk {commas : List Nat} {ts us vs ws : List Token} (h : Enters o commas ts)
      (hc : Left o .comparison us) (hs : Left o .sum vs) (hp : Left o .product ws) :
      Awaits o commas (ts ++ us ++ vs ++ ws)

end

/-- The tokens lead to the end of an operand. -/
inductive Ends (o : Outline) : List Nat → List Token → Prop where
  | mk {commas : List Nat} {ts us vs ws : List Token} (h : Enters o commas ts)
      (hc : Left o .comparison us) (hs : Left o .sum vs) (hp : Spelled o .product ws) :
      Ends o commas (ts ++ us ++ vs ++ ws)

/-- The tokens lead to a given place. -/
def Arrives (o : Outline) (turn : Turn) (ts : List Token) : Prop :=
  match turn.due with
  | .operand => Awaits o turn.commas ts
  | .operator => Ends o turn.commas ts
  | .arguments n => ∃ us name p, ts = us ++ [⟨.ident name, p⟩] ∧ o.arity? name = some n ∧
      Awaits o turn.commas us
  | .closing => ∃ us name p l, ts = us ++ [⟨.ident name, p⟩, ⟨.symbol .parenOpen, l⟩] ∧
      o.arity? name = some 0 ∧ Awaits o turn.commas us

theorem Enters.awaits {commas : List Nat} (h : Enters o commas ts) : Awaits o commas ts := by
  simpa using Awaits.mk h .nothing .nothing .nothing

/-- An operand that is due comes. -/
theorem Awaits.factor {commas : List Nat} (h : Awaits o commas ts)
    (hf : Spelled o .factor us) : Ends o commas (ts ++ us) := by
  obtain ⟨h, hc, hs, hp⟩ := h
  simpa using Ends.mk h hc hs (hp.join hf)

/-- All that stands in the innermost parentheses behind the last comma is one expression. -/
theorem Ends.exists_spelled {commas : List Nat} (h : Ends o commas ts) :
    ∃ us vs, ts = us ++ vs ∧ Enters o commas us ∧ Spelled o .comparison vs := by
  obtain ⟨h, hc, hs, hp⟩ := h
  exact ⟨_, _, by simp, h, hc.join (hs.join hp)⟩

theorem Ends.operator {commas : List Nat} (h : Ends o commas ts) (op : Operator) (p : Position) :
    Awaits o commas (ts ++ [⟨.symbol op.symbol, p⟩]) := by
  obtain ⟨h, hc, hs, hp⟩ := h
  obtain ⟨level, hop⟩ := op.exists_level
  -- The operator ends the operands of the tighter levels.
  cases level with
  | factor => cases hop
  | product => simpa using Awaits.mk h hc hs (.operand p hp hop)
  | sum => simpa using Awaits.mk h hc (.operand p (hs.join hp) hop) .nothing
  | comparison =>
    simpa using Awaits.mk h (.operand p (hc.join (hs.join hp)) hop) .nothing .nothing

theorem Ends.comma {commas : List Nat} {n : Nat} (h : Ends o ((n + 1) :: commas) ts)
    (p : Position) : Awaits o (n :: commas) (ts ++ [⟨.symbol .comma, p⟩]) := by
  obtain ⟨us, vs, rfl, hus, hvs⟩ := h.exists_spelled
  cases hus with
  | @call _ _ _ name _ k q l hleft hname hargs =>
    have hname : o.arity? name = some (k + 1 + n + 1) := by
      rw [hname]
      congr 1
      omega
    simpa using (Enters.call q l hleft hname (.snoc p hargs hvs)).awaits

theorem Ends.close {commas : List Nat} (h : Ends o (0 :: commas) ts) (r : Position) :
    Ends o commas (ts ++ [⟨.symbol .parenClose, r⟩]) := by
  obtain ⟨us, vs, rfl, hus, e, hvs, hl⟩ := h.exists_spelled
  cases hus with
  | paren l hleft =>
    have hfactor : Spelled o .factor _ := ⟨e, .paren l r hvs, hl⟩
    simpa using hleft.factor hfactor
  | @call _ _ _ name _ k p l hleft hname hargs =>
    obtain ⟨args, hr, hargs, hlen⟩ := hargs.join (.one hvs) ⟨hl, trivial⟩
    have hfactor : Spelled o .factor _ :=
      ⟨.call name args (some p), .call p l r hr, by simpa [hlen] using hname, hargs⟩
    simpa using hleft.factor hfactor

theorem Arrives.follow {t : Token} (h : Arrives o turn ts) (hf : follow o turn t = some turn') :
    Arrives o turn' (ts ++ [t]) := by
  obtain ⟨due, commas⟩ := turn
  obtain ⟨kind, p⟩ := t
  cases due with
  | operand =>
    have h : Awaits o commas ts := h
    simp only [Expr.follow] at hf
    split at hf
    next value =>
      cases hf
      exact h.factor ⟨_, .literal value p, trivial⟩
    next name =>
      split at hf
      next n hn =>
        cases hf
        exact ⟨ts, name, p, rfl, hn, h⟩
      next hn =>
        cases hf
        exact h.factor ⟨_, .var name p, hn⟩
    next =>
      cases hf
      exact (Enters.paren p h).awaits
    next => cases hf
  | operator =>
    have h : Ends o commas ts := h
    simp only [Expr.follow] at hf
    split at hf
    next =>
      split at hf
      next n commas =>
        cases hf
        exact h.comma p
      next => cases hf
    next =>
      split at hf
      next commas =>
        cases hf
        exact h.close p
      next => cases hf
    next s _ _ =>
      obtain ⟨op, hop, rfl⟩ := Option.map_eq_some_iff.mp hf
      have hs : s = op.symbol := by cases s <;> cases hop <;> rfl
      subst hs
      exact h.operator op p
    next => cases hf
  | arguments n =>
    obtain ⟨us, name, q, rfl, hname, h⟩ := h
    cases n with
    | zero =>
      simp only [Expr.follow] at hf
      split at hf
      next hk =>
        cases hf
        obtain rfl : kind = .symbol .parenOpen := by simpa [Token.isSymbol] using hk
        exact ⟨us, name, q, p, by simp, hname, h⟩
      next => cases hf
    | succ n =>
      simp only [Expr.follow] at hf
      split at hf
      next hk =>
        cases hf
        obtain rfl : kind = .symbol .parenOpen := by simpa [Token.isSymbol] using hk
        have hname : o.arity? name = some (0 + n + 1) := by simpa using hname
        have hcall := (Enters.call q p h hname .nil).awaits
        simpa [Arrives] using hcall
      next => cases hf
  | closing =>
    obtain ⟨us, name, q, l, rfl, hname, h⟩ := h
    simp only [Expr.follow] at hf
    split at hf
    next hk =>
      cases hf
      obtain rfl : kind = .symbol .parenClose := by simpa [Token.isSymbol] using hk
      have hfactor : Spelled o .factor _ :=
        ⟨.call name [] (some q), .call q l p .nil, hname, trivial⟩
      simpa [Arrives] using h.factor hfactor
    next => cases hf

theorem Arrives.followAll (h : Arrives o turn ts)
    (hf : followAll o turn us = some turn') : Arrives o turn' (ts ++ us) := by
  induction us generalizing turn ts with
  | nil =>
    cases hf
    simpa using h
  | cons t us ih =>
    obtain ⟨turn₁, h₁, h₂⟩ := Option.bind_eq_some_iff.mp hf
    simpa using ih (h.follow h₁) h₂

/-! ## The tokens of an expression -/

theorem Renders.inTurn {e : Expr} (h : Renders .comparison e ts) (hl : e.Linked o.arity?) :
    InTurn o ts := h.followAll hl []

/-- Tokens come as they have to exactly if they spell a linked expression. -/
theorem inTurn_iff : InTurn o ts ↔ Spelled o .comparison ts := by
  constructor
  · intro h
    have hstart : Arrives o ⟨.operand, []⟩ [] := Enters.top.awaits
    have hends : Ends o [] ts := hstart.followAll h
    obtain ⟨us, vs, rfl, hus, hvs⟩ := hends.exists_spelled
    cases hus with
    | top => simpa using hvs
  · rintro ⟨e, h, hl⟩
    exact h.inTurn hl

/-- What is read from tokens is spelled by them exactly if operands and operators take turns in them
and every function is called with its own arguments. -/
theorem renders_iff_of_parse {e : Expr} (h : parse o ts = .ok e) :
    Renders .comparison e ts ↔ InTurn o ts := by
  rw [inTurn_iff]
  constructor
  · intro hr
    exact ⟨e, hr, linked_of_parse h⟩
  · rintro ⟨e', hr, hl⟩
    have hsame : e = e' := Except.ok.inj (h.symm.trans (hr.parse hl))
    rwa [hsame]

theorem renders_iff_sample : parse sampleOutline sampleTokens = .ok sample ∧
    (Renders .comparison sample sampleTokens ↔ InTurn sampleOutline sampleTokens) := by
  have h : parse sampleOutline sampleTokens = .ok sample := rfl
  exact ⟨h, renders_iff_of_parse h⟩

/-- The tokens of `1 f(2)`. -/
def strayArgument : List Token :=
  [⟨.literal (.int 1), column 0⟩, ⟨.ident "f", column 2⟩, ⟨.symbol .parenOpen, column 3⟩,
   ⟨.literal (.int 2), column 4⟩, ⟨.symbol .parenClose, column 5⟩]

/-- The tokens of `1 2 +`. -/
def lateOperator : List Token :=
  [⟨.literal (.int 1), column 0⟩, ⟨.literal (.int 2), column 2⟩, ⟨.symbol .plus, column 4⟩]

/-- The tokens of `g`. -/
def bareFunction : List Token := [⟨.ident "g", column 0⟩]

/-- A call is completed by an operand outside of its parentheses, an operator by the two operands in
front of it, and a function that takes no arguments is called without parentheses. -/
theorem parse_not_renders :
    let call : Expr := .call "f" [.literal (.int 1) (column 0), .literal (.int 2) (column 4)]
      (column 2)
    let sum : Expr := .binary .add (.literal (.int 1) (column 0)) (.literal (.int 2) (column 2))
      (column 4)
    let bare : Expr := .call "g" [] (column 0)
    (parse sampleOutline strayArgument = .ok call ∧ ¬ Renders .comparison call strayArgument) ∧
    (parse sampleOutline lateOperator = .ok sum ∧ ¬ Renders .comparison sum lateOperator) ∧
    (parse sampleOutline bareFunction = .ok bare ∧ ¬ Renders .comparison bare bareFunction) := by
  have refuse : ∀ {e : Expr} {ts : List Token}, parse sampleOutline ts = .ok e →
      ¬ InTurn sampleOutline ts → ¬ Renders .comparison e ts := by
    intro e ts h hturn hr
    exact hturn (hr.inTurn (linked_of_parse h))
  exact ⟨⟨rfl, refuse rfl (by decide)⟩, ⟨rfl, refuse rfl (by decide)⟩, rfl, refuse rfl (by decide)⟩

end Expr
end ProcLang

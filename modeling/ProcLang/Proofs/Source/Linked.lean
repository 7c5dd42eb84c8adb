import ProcLang.Outline
import ProcLang.Stmt

/-!
# Linked programs

A name that is read is a variable or the name of a function that is called. Syntax is linked to a
table of functions if no function is read like a variable and every call is of a function in the
table, with as many arguments as that takes. A return or an assignment is a statement and never part
of an expression. Where the nodes stand does not matter: `erase` forgets that.

## Main definitions

* `Expr.Linked`, `Stmt.Linked` — syntax that goes with a table of functions.
* `Outline.arity?`, `Program.arity?` — the tables of an outline and of a program.
* `Expr.erase`, `Program.erase` — syntax without positions.
-/
namespace ProcLang

/-! ## Linked syntax -/

section Linked

variable (arity? : String → Option Nat)

mutual

/-- An expression that has a value, if `arity?` tells how many arguments functions take. -/
def Expr.Linked : Expr → Prop
  | .literal _ _ => True
  | .var name _ => arity? name = none
  | .binary _ lhs rhs _ => Expr.Linked lhs ∧ Expr.Linked rhs
  | .call name args _ => arity? name = some args.length ∧ Expr.AllLinked args
  | .return _ _ | .assign _ _ _ _ => False

def Expr.AllLinked : List Expr → Prop
  | [] => True
  | e :: es => Expr.Linked e ∧ Expr.AllLinked es

end

mutual

/-- A statement all of whose expressions have values. -/
def Stmt.Linked : Stmt → Prop
  | .expr (.assign _ _ value _) => value.Linked arity?
  | .expr (.return values _) => Expr.AllLinked arity? values
  | .expr e => e.Linked arity?
  | .branch c => Conditional.Linked c

def Stmt.AllLinked : List Stmt → Prop
  | [] => True
  | s :: ss => Stmt.Linked s ∧ Stmt.AllLinked ss

/-- A conditional all of whose expressions have values. -/
def Conditional.Linked : Conditional → Prop
  | ⟨guard, body, other, _⟩ => guard.Linked arity? ∧ Stmt.AllLinked body ∧ Otherwise.Linked other

/-- An alternative all of whose expressions have values. -/
def Otherwise.Linked : Otherwise → Prop
  | .nothing => True
  | .block body => Stmt.AllLinked body
  | .chain c => Conditional.Linked c

end

end Linked

/-- How many arguments a function takes. -/
def Outline.arity? (o : Outline) (name : String) : Option Nat := (o.get? name).map (·.arity)

/-- How many parameters a function has. -/
def Program.arity? (p : Program) (name : String) : Option Nat :=
  (p.find? (·.name == name)).map (·.params.length)

/-- A program whose functions only call each other. -/
def Program.Linked (p : Program) : Prop := ∀ d ∈ p, Stmt.AllLinked p.arity? d.body

/-! ## Syntax without positions -/

mutual

/-- An expression without positions. -/
def Expr.erase : Expr → Expr
  | .literal value _ => .literal value none
  | .var name _ => .var name none
  | .binary op lhs rhs _ => .binary op lhs.erase rhs.erase none
  | .call name args _ => .call name (Expr.eraseAll args) none
  | .return values _ => .return (Expr.eraseAll values) none
  | .assign name ty value _ => .assign name ty value.erase none

def Expr.eraseAll : List Expr → List Expr
  | [] => []
  | e :: es => e.erase :: Expr.eraseAll es

end

mutual

/-- A statement without positions. -/
def Stmt.erase : Stmt → Stmt
  | .expr e => .expr e.erase
  | .branch c => .branch c.erase

def Stmt.eraseAll : List Stmt → List Stmt
  | [] => []
  | s :: ss => s.erase :: Stmt.eraseAll ss

/-- A conditional without positions. -/
def Conditional.erase : Conditional → Conditional
  | ⟨guard, body, other, _⟩ => ⟨guard.erase, Stmt.eraseAll body, other.erase, none⟩

/-- An alternative without positions. -/
def Otherwise.erase : Otherwise → Otherwise
  | .nothing => .nothing
  | .block body => .block (Stmt.eraseAll body)
  | .chain c => .chain c.erase

end

/-- A declaration without positions. -/
def Declaration.erase (d : Declaration) : Declaration :=
  { d with body := Stmt.eraseAll d.body, pos := none }

/-- A program without positions. -/
def Program.erase (p : Program) : Program := p.map Declaration.erase

section

variable {arity? : String → Option Nat}

@[simp] theorem Expr.length_eraseAll (es : List Expr) : (eraseAll es).length = es.length := by
  induction es with
  | nil => rfl
  | cons e es ih => simp [eraseAll, ih]

mutual

@[simp] theorem Expr.linked_erase (e : Expr) : e.erase.Linked arity? ↔ e.Linked arity? := by
  match e with
  | .literal _ _ | .var _ _ | .return _ _ | .assign _ _ _ _ => simp [erase, Linked]
  | .binary _ lhs rhs _ => simp [erase, Linked, linked_erase lhs, linked_erase rhs]
  | .call _ args _ => simp [erase, Linked, allLinked_eraseAll args]

@[simp] theorem Expr.allLinked_eraseAll (es : List Expr) :
    AllLinked arity? (eraseAll es) ↔ AllLinked arity? es := by
  match es with
  | [] => rfl
  | e :: es => simp [eraseAll, AllLinked, linked_erase e, allLinked_eraseAll es]

end

mutual

theorem Stmt.linked_erase (s : Stmt) : s.erase.Linked arity? ↔ s.Linked arity? := by
  match s with
  | .expr e => cases e <;> simp [Stmt.erase, Expr.erase, Stmt.Linked, Expr.Linked]
  | .branch c => simp [Stmt.erase, Stmt.Linked, Conditional.linked_erase c]

@[simp] theorem Stmt.allLinked_eraseAll (ss : List Stmt) :
    Stmt.AllLinked arity? (Stmt.eraseAll ss) ↔ Stmt.AllLinked arity? ss := by
  match ss with
  | [] => rfl
  | s :: ss =>
    simp [Stmt.eraseAll, Stmt.AllLinked, Stmt.linked_erase s, Stmt.allLinked_eraseAll ss]

theorem Conditional.linked_erase (c : Conditional) : c.erase.Linked arity? ↔ c.Linked arity? := by
  match c with
  | ⟨guard, body, other, _⟩ =>
    simp [Conditional.erase, Conditional.Linked, Stmt.allLinked_eraseAll body,
      Otherwise.linked_erase other]

theorem Otherwise.linked_erase (o : Otherwise) : o.erase.Linked arity? ↔ o.Linked arity? := by
  match o with
  | .nothing => rfl
  | .block body => simp [Otherwise.erase, Otherwise.Linked, Stmt.allLinked_eraseAll body]
  | .chain c => simp [Otherwise.erase, Otherwise.Linked, Conditional.linked_erase c]

end

end

namespace Program

@[simp] theorem arity?_erase (p : Program) : p.erase.arity? = p.arity? := by
  funext name
  simp only [arity?, erase, List.find?_map, Option.map_map]
  rfl

@[simp] theorem linked_erase (p : Program) : p.erase.Linked ↔ p.Linked := by
  simp only [Linked, arity?_erase]
  simp [erase, Declaration.erase]

end Program
end ProcLang

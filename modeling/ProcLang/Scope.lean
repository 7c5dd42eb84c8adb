/-!
# Scopes

Names are bound in scopes that lie inside one another. The outermost one, the global scope, is
always there. A name means what the innermost scope that binds it says.

## Main definitions

* `Scope` — the bindings of one scope, the latest first.
* `Scopes` — the open scopes; `Scopes.lookup?` finds what a name means.
-/
namespace ProcLang

/-- The bindings of one scope, the latest first. -/
abbrev Scope (α : Type) : Type := List (String × α)

/-- The open scopes, innermost first, and the global one. -/
structure Scopes (α : Type) where
  inner : List (Scope α)
  global : Scope α

namespace Scopes

variable {α : Type}

/-- Only an empty global scope. -/
def empty : Scopes α := ⟨[], []⟩

/-- All scopes, innermost first. -/
def all (s : Scopes α) : List (Scope α) := s.inner ++ [s.global]

/-- How many scopes are open, the global one included. -/
def depth (s : Scopes α) : Nat := s.inner.length + 1

/-- Opens a scope. -/
def push (s : Scopes α) : Scopes α := { s with inner := [] :: s.inner }

/-- Closes the innermost scope; the global one stays open. -/
def pop (s : Scopes α) : Scopes α := { s with inner := s.inner.tail }

/-- Closes all scopes but the global one. -/
def reset (s : Scopes α) : Scopes α := { s with inner := [] }

/-- Binds a name in the innermost scope. -/
def insert (s : Scopes α) (name : String) (a : α) : Scopes α :=
  match s.inner with
  | [] => { s with global := (name, a) :: s.global }
  | scope :: inner => { s with inner := ((name, a) :: scope) :: inner }

/-- Binds a name in the global scope. -/
def insertGlobal (s : Scopes α) (name : String) (a : α) : Scopes α :=
  { s with global := (name, a) :: s.global }

/-- What a name means. -/
def lookup? (s : Scopes α) (name : String) : Option α := s.all.findSome? (·.lookup name)

@[simp] theorem depth_push (s : Scopes α) : s.push.depth = s.depth + 1 := rfl

@[simp] theorem pop_push (s : Scopes α) : s.push.pop = s := rfl

@[simp] theorem depth_insert (s : Scopes α) (name : String) (a : α) :
    (s.insert name a).depth = s.depth := by
  unfold insert
  split <;> simp [depth, *]

end Scopes
end ProcLang

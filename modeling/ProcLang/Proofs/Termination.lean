import ProcLang.Proofs.IR.Termination
import ProcLang.Proofs.SingleAssignment
import ProcLang.Proofs.Source.Nodes

/-!
# Termination

Lowering adds no calls: what a function of the module calls, its declaration calls. So a program
without recursion becomes a module without recursion, and every call of one of its functions ends,
whatever the arguments are.

## Main definitions

* `Declaration.callees`, `Program.Calls` — the call graph of a program.

## Main statements

* `Lowers.callees_subset` — the calls of statements in their code.
* `Program.ends_of_lower` — calls of lowered functions end.
-/
namespace ProcLang

open IR (Instr Value Flow Terminator)

/-! ## The call graph -/

/-- The function that is called at a node. -/
def Program.Node.callee? : Program.Node → Option String
  | .expr (.call name _ _) => some name
  | _ => none

/-- The functions that are called at nodes. -/
def Program.Node.callees (ns : List Program.Node) : List String := ns.filterMap callee?

open Program (Node.callees)

@[simp, grind =] theorem Program.Node.callees_cons (n : Program.Node) (ns : List Program.Node) :
    callees (n :: ns) = n.callee?.toList ++ callees ns := by
  cases h : n.callee? <;> simp [callees, h]

@[simp, grind =] theorem Program.Node.callees_append (ns ns' : List Program.Node) :
    callees (ns ++ ns') = callees ns ++ callees ns' := List.filterMap_append

/-- The functions that the body of a declaration calls. -/
def Declaration.callees (d : Declaration) : List String := Node.callees (Stmt.nodesAll d.body)

/-- `p.Calls caller callee`: the body of a function `caller` of `p` has a call of `callee`. -/
def Program.Calls (p : Program) (caller callee : String) : Prop :=
  ∃ d ∈ p, d.name = caller ∧ callee ∈ d.callees

/-! ## Calls in code -/

/-- Functions are known by their own names. -/
def Scopes.ByName (S : Scopes Binding) : Prop :=
  ∀ name sig, S.lookup? name = some (.function sig) → sig.name = name

namespace Scopes.ByName

variable {S : Scopes Binding}

theorem push (h : S.ByName) : S.push.ByName := by
  intro name sig hsig
  exact h name sig (by simpa using hsig)

theorem insert_slot (h : S.ByName) (name : String) (v : Value) :
    (S.insert name (.slot v)).ByName := by
  intro other sig hsig
  rw [Scopes.lookup?_insert] at hsig
  split at hsig
  · cases hsig
  · exact h other sig hsig

theorem bindParams (h : S.ByName) (n : Nat) (ps : List (String × IR.Ty)) :
    (S.bindParams n ps).ByName := by
  induction ps generalizing n S with
  | nil => exact h
  | cons q ps ih => exact ih (h.insert_slot _ _) _

end Scopes.ByName

theorem Program.byName_scopes (p : Program) : p.scopes.ByName := by
  intro name sig hsig
  obtain ⟨d, -, rfl, hd⟩ := lookup?_scopes hsig
  cases hd
  rfl

theorem Casts.callees_eq {n n' : Nat} {v w : Value} {ty : IR.Ty} {is : List Instr}
    (h : Casts n v ty is w n') : IR.callees is = [] := by
  cases h <;> rfl

theorem Operator.callee?_operation (op : Operator) (l r : Value) :
    (op.operation l r).callee? = none := by
  cases op <;> rfl

mutual

theorem Emits.callees_subset {S : Scopes Binding} (hS : S.ByName) {n n' : Nat} {e : Expr}
    {is : List Instr} {v : Value} (h : Emits S n e is v n') :
    IR.callees is ⊆ Node.callees e.nodes := by
  cases h with
  | literal | var => exact List.nil_subset _
  | @binary _ _ _ _ n₄ op l r pos _ _ _ _ _ _ w₁ w₂ _ hl hr _ hcl hcr =>
    have hop : IR.callees [⟨some ⟨.temp n₄, op.resultTy w₁.ty⟩, op.operation w₁ w₂⟩] = [] := by
      simp [IR.callees, op.callee?_operation]
    have hl := hl.callees_subset hS
    have hr := hr.callees_subset hS
    change _ ⊆ Node.callees (l.nodes ++ r.nodes)
    grind [hcl.callees_eq, hcr.callees_eq]
  | @call _ _ name sig args pos is vs hs _ ha =>
    have hargs := ha.callees_subset hS
    have hname : sig.name = name := hS name sig hs
    change _ ⊆ name :: Node.callees (Expr.nodesAll args)
    rw [IR.callees_append, hname]
    change _ ++ [name] ⊆ _
    grind

theorem EmitsAll.callees_subset {S : Scopes Binding} (hS : S.ByName) {n n' : Nat} {es : List Expr}
    {tys : List IR.Ty} {is : List Instr} {vs : List Value} (h : EmitsAll S n es tys is vs n') :
    IR.callees is ⊆ Node.callees (Expr.nodesAll es) := by
  cases h with
  | nil => exact List.nil_subset _
  | cons he hc hes =>
    have he := he.callees_subset hS
    have hes := hes.callees_subset hS
    grind [hc.callees_eq, Expr.nodesAll]

end

namespace IR.Flow

/-- The functions that a flow calls. -/
def callees : Flow → List String
  | .fall | .ret _ => []
  | .emit i rest => i.op.callee?.toList ++ rest.callees
  | .bind _ _ rest => rest.callees
  | .when _ yes rest => yes.callees ++ rest.callees
  | .either _ yes _ no rest => yes.callees ++ (no.callees ++ rest.callees)

@[grind =] theorem callees_emits (is : List Instr) (g : Flow) :
    (emits is g).callees = IR.callees is ++ g.callees := by
  induction is with
  | nil => rfl
  | cons i is ih =>
    rw [IR.callees_cons, List.append_assoc, ← ih]
    rfl

theorem callees_bindParams (k : Nat) (ps : List (String × IR.Ty)) (g : Flow) :
    (bindParams k ps g).callees = g.callees := by
  induction ps generalizing k with
  | nil => rfl
  | cons q ps ih => exact ih (k + 1)

theorem perm_callees (g : Flow) (n : Nat) (exit : Option Terminator) :
    (IR.callees (g.code n exit)).Perm g.callees := by
  induction g generalizing n exit with
  | fall | ret => exact .nil
  | emit i rest ih =>
    change (IR.callees (i :: rest.code n exit)).Perm _
    rw [IR.callees_cons]
    exact (ih n exit).append_left _
  | bind k v rest ih => exact ih n exit
  | when cond yes rest ihy ih =>
    rw [code_when, IR.callees_append]
    exact (ihy ..).append (ih ..)
  | either cond yes base no rest ihy ihn ih =>
    refine ((code_either ..).filterMap _).trans ?_
    change (IR.callees _).Perm _
    rw [IR.callees_append, IR.callees_append]
    exact (ihy ..).append ((ihn ..).append (ih ..))

end IR.Flow

theorem IR.Function.perm_callees_ofFlow (name : String) (ret : IR.Ty)
    (params : List (String × IR.Ty)) (g : Flow) :
    (ofFlow name ret params g).callees.Perm g.callees :=
  g.perm_callees 1 (some (ending ret))

/-- The calls in the code of statements are calls of the statements. -/
theorem Lowers.callees_subset {ret : IR.Ty} {S S' : Scopes Binding} {n n' : Nat} {ss : List Stmt}
    {g : Flow} (h : Lowers ret S n ss g S' n') (hS : S.ByName) :
    g.callees ⊆ Node.callees (Stmt.nodesAll ss) := by
  induction h with
  | nil | returnNothing => exact List.nil_subset _
  | value he _ ih =>
    have he := he.callees_subset hS
    have ih := ih hS
    grind [Stmt.nodesAll, Stmt.nodes]
  | voidCall hs _ ha _ ih =>
    have hname := hS _ _ hs
    have ha := ha.callees_subset hS
    have ih := ih hS
    grind [Stmt.nodesAll, Stmt.nodes, Expr.nodes, IR.Operation.callee?, Program.Node.callee?]
  | assign he hc _ ih =>
    have he := he.callees_subset hS
    have ih := ih (hS.insert_slot _ _)
    grind [Flow.callees, hc.callees_eq, Stmt.nodesAll, Stmt.nodes, Expr.nodes]
  | returnValue _ he hc =>
    have he := he.callees_subset hS
    simp only [Stmt.nodesAll, Stmt.nodes, Expr.nodes, Expr.nodesAll]
    grind [Flow.callees, hc.callees_eq]
  | when he hc _ _ ihy ih =>
    have he := he.callees_subset hS
    have ihy := ihy hS.push
    have ih := ih hS
    grind [Flow.callees, hc.callees_eq, Stmt.nodesAll, Stmt.nodes, Conditional.nodes]
  | either he hc _ _ _ ihy ihn ih =>
    have he := he.callees_subset hS
    have ihy := ihy hS.push
    have ihn := ihn hS.push
    have ih := ih hS
    grind [Flow.callees, hc.callees_eq, Stmt.nodesAll, Stmt.nodes, Conditional.nodes,
      Otherwise.nodes]
  | chain he hc _ _ _ ihy ihn ih =>
    have he := he.callees_subset hS
    have ihy := ihy hS.push
    have ihn := ihn hS
    have ih := ih hS
    grind [Flow.callees, hc.callees_eq, Stmt.nodesAll, Stmt.nodes, Conditional.nodes,
      Otherwise.nodes]

namespace Program

variable {p : Program} {m : IR.Module}

/-- Lowering adds no calls. -/
theorem calls_of_lower {name : String} (h : p.lower name = .ok m) {caller callee : String}
    (hcall : m.Calls caller callee) : p.Calls caller callee := by
  obtain ⟨f, hf, rfl, hcallee⟩ := hcall
  obtain ⟨d, hd, g, hg, rfl⟩ := exists_lowersTo h hf
  obtain ⟨-, body, S', n', hbody, rfl⟩ := hg
  refine ⟨d, hd, rfl, hbody.callees_subset (p.byName_scopes.push.bindParams _ _) ?_⟩
  rw [← IR.Flow.callees_bindParams 0 d.irParams body]
  exact (IR.Function.perm_callees_ofFlow ..).subset hcallee

/-- If no function of a program comes back to itself by calls, every call of a function of its
module ends with a value or a fault, and no run of a function enters more blocks than the function
has. -/
theorem ends_of_lower {name : String} (h : p.lower name = .ok m) (hp : Nonrecursive p.Calls) :
    (∀ function args, ∃ outcome, ∀ fuel ≥ IR.blockCount m.functions,
      (m.run fuel function args).run = some outcome) ∧
    ∀ f ∈ m.functions, ∀ fuel a, ∀ b ∈ f.blocks,
      (m.trace fuel f a b).length ≤ f.blocks.length := by
  have hwell : ∀ f ∈ m.functions, f.WellBranched := by
    intro f hf
    obtain ⟨d, -, g, -, rfl⟩ := exists_lowersTo h hf
    exact IR.Function.wellBranched_ofFlow d.name d.ret d.irParams g
  constructor
  · intro function args
    exact IR.Module.settles_run (hp.mono (calls_of_lower h)) hwell function args
  · intro f hf fuel a b hb
    exact (hwell f hf).length_trace_le m fuel a hb

/-- A function with a conditional, and one that calls it twice. -/
def layered : Program :=
  [{ name := "main"
     params := []
     returns := [.i32]
     body :=
      [.expr (.call "pick" [.literal (.bool false) none] none),
       .expr (.return [.call "pick" [.literal (.bool true) none] none] none)]
     pos := none },
   { name := "pick"
     params := [⟨"first", .bool⟩]
     returns := [.i32]
     body :=
      [.branch
        { guard := .var "first" none
          body := [.expr (.return [.literal (.int 1) none] none)]
          otherwise := .nothing
          pos := none },
       .expr (.return [.literal (.int 2) none] none)]
     pos := none }]

theorem ends_layered : Nonrecursive layered.Calls ∧ ∃ m, layered.lower "layered" = .ok m ∧
    (∀ function args, ∃ outcome, ∀ fuel ≥ IR.blockCount m.functions,
      (m.run fuel function args).run = some outcome) ∧
    ∀ f ∈ m.functions, ∀ fuel a, ∀ b ∈ f.blocks,
      (m.trace fuel f a b).length ≤ f.blocks.length := by
  have hcalls : Nonrecursive layered.Calls := by
    apply Nonrecursive.of_rank fun name => if name = "main" then 1 else 0
    rintro _ callee ⟨d, hd, rfl, hcallee⟩
    have hrank : ∀ d ∈ layered, ∀ callee ∈ d.callees,
        (if callee = "main" then 1 else 0) < if d.name = "main" then 1 else 0 := by decide
    exact hrank d hd callee hcallee
  have hok : (layered.lower "layered").isOk = true := by decide +kernel
  cases hm : layered.lower "layered" with
  | error e => simp [hm, Except.isOk, Except.toBool] at hok
  | ok m => exact ⟨hcalls, m, rfl, ends_of_lower hm hcalls⟩

end Program
end ProcLang

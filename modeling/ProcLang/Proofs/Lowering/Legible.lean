import ProcLang.Proofs.IR.Change
import ProcLang.Proofs.IR.Legible
import ProcLang.Proofs.Lowering.Typing
import ProcLang.Proofs.SingleAssignment

/-!
# Lowered code is legible

Typed code is legible if the names that it refers to are names and if the labels of its blocks are
words. Lowering adds labels of its own only, and all other names come from the program.

## Main definitions

* `IR.Env.Named`, `Program.Named` — names are names.
* `IR.Flow.bases` — what the labels of a flow start with.

## Main statements

* `IR.Flow.Typed.legible_block`, `IR.Flow.Typed.legible_blocks` — the blocks of a typed flow.
* `Program.legible_of_lower` — the module of a program.
-/
namespace ProcLang
namespace IR

/-- Parameters and functions have names, and functions take and return values. -/
structure Env.Named (E : Env) : Prop where
  params : ∀ p ∈ E.params, IsName p.1
  sigs : ∀ sig ∈ E.sigs, IsName sig.name ∧ sig.Scalar

section Typed

variable {E : Env} {Δ : Ctx}

theorem Operand.legible (hE : E.Named) {v : Value} (h : Operand E Δ v) : v.Legible := by
  cases h with
  | temp h => exact .temp _ _
  | param h => exact .param (hE.params _ h) _
  | const h => exact .const h

theorem Arith.isScalar_of_accepts {op : Arith} {ty : Ty} (h : op.accepts ty = true) :
    ty.isScalar = true := by
  cases op <;> cases ty <;> first | rfl | cases h

theorem Conversion.isScalar_of_between? {source target : Ty} {op : Conversion}
    (h : between? source target = some op) :
    source.isScalar = true ∧ target.isScalar = true := by
  cases source <;> cases target <;> cases h <;> exact ⟨rfl, rfl⟩

/-- Storage holds values only. -/
def Ctx.Scalar (Δ : Ctx) : Prop := ∀ t ∈ Δ.slots, t.2.isScalar = true

theorem Ctx.Scalar.bind (h : Δ.Scalar) (k : Nat) {ty : Ty} (hs : ty.isScalar = true) :
    (Δ.bind k ty).Scalar := by
  exact List.forall_mem_cons.mpr ⟨hs, h⟩

theorem Operation.legible_args (hE : E.Named) {sig : Signature} {args : List Value}
    (hsig : sig ∈ E.sigs) (hargs : ∀ v ∈ args, Operand E Δ v)
    (htys : args.map (·.ty) = sig.params) : ∀ v ∈ args, v.Legible ∧ v.ty.isScalar = true := by
  intro v hv
  refine ⟨(hargs v hv).legible hE, (hE.sigs sig hsig).2.1 _ ?_⟩
  rw [← htys]
  exact List.mem_map_of_mem hv

theorem Operation.Typed.legible (hE : E.Named) {op : Operation} {ty : Ty} (h : op.Typed E Δ ty)
    (hs : ty.isScalar = true) : op.Legible (some ty) := by
  cases h with
  | load h => exact .load _ hs
  | arith hl hr hty hop => exact .arith (hl.legible hE) (hr.legible hE) hty hs
  | compare hl hr hty hs' => exact .compare (hl.legible hE) (hr.legible hE) hty hs'
  | cast hv hop =>
    obtain ⟨hsource, htarget⟩ := Conversion.isScalar_of_between? hop
    exact .cast (hv.legible hE) hsource htarget
  | call hsig hargs htys =>
    exact .call (hE.sigs _ hsig).1 (legible_args hE hsig hargs htys) hs

/-- Only a call has no result. -/
theorem Operation.Typed.legible_none (hE : E.Named) (hΔ : Δ.Scalar) {op : Operation} {ty : Ty}
    (h : op.Typed E Δ ty) (hv : ty.isVoid = true) : op.Legible none := by
  have hs : ty.isScalar ≠ true := by simp [Ty.isVoid_iff.mp hv, Ty.isScalar]
  cases h with
  | load h => exact absurd (hΔ _ h) hs
  | arith hl hr hty hop => exact absurd (Arith.isScalar_of_accepts hop) hs
  | compare => cases hv
  | cast _ hop => exact absurd (Conversion.isScalar_of_between? hop).2 hs
  | @call sig args hsig hargs htys =>
    rw [Ty.isVoid_iff.mp hv]
    exact .callNothing (hE.sigs _ hsig).1 (legible_args hE hsig hargs htys)

/-! ## Flows -/

namespace Flow

/-- What the labels of the new blocks of a flow start with, those apart that all flows have. -/
def bases : Flow → List String
  | .fall | .ret _ => []
  | .emit _ rest | .bind _ _ rest => rest.bases
  | .when _ yes rest => yes.bases ++ rest.bases
  | .either _ yes base no rest => base :: (yes.bases ++ (no.bases ++ rest.bases))

@[simp] theorem bases_emits (is : List Instr) (g : Flow) : (emits is g).bases = g.bases := by
  induction is with
  | nil => rfl
  | cons i is ih => exact ih

theorem isWord_blockLabel {base : String} (h : IsWord base) (i : Nat) :
    IsWord (blockLabel base i) := by
  have hpoint : IsWord "." := by decide
  change IsWord (base ++ "." ++ toString i)
  exact isWord_append.mpr ⟨isWord_append.mpr ⟨h, hpoint⟩, isWord_toString (i : Int)⟩

theorem isWord_nextLabel (n : Nat) (yes : Flow) : IsWord (nextLabel n yes) :=
  isWord_blockLabel (by decide) _

namespace Typed

variable {g : Flow} {k k' : Nat}

theorem legible_instrs (hE : E.Named) (h : g.Typed E k Δ k') (hΔ : Δ.Scalar) :
    ∀ i ∈ g.instrs, i.Legible := by
  induction h with
  | fall | retNothing | ret | when | either => intro i hi; cases hi
  | define hop hs _ ih => exact List.forall_mem_cons.mpr ⟨.define _ (hop.legible hE hs), ih hΔ⟩
  | perform hop hv _ ih =>
    exact List.forall_mem_cons.mpr ⟨.perform (hop.legible_none hE hΔ hv), ih hΔ⟩
  | bind hv hs _ ih =>
    refine List.forall_mem_cons.mpr ⟨.define _ (.alloca hs), ?_⟩
    exact List.forall_mem_cons.mpr ⟨.perform (.store _ (hv.legible hE) hs), ih (hΔ.bind _ hs)⟩

theorem legible_terminator (hE : E.Named) (h : g.Typed E k Δ k') (hb : ∀ b ∈ g.bases, IsWord b)
    (n : Nat) {exit : Terminator} (he : exit.Legible) :
    ∃ t, g.terminator n (some exit) = some t ∧ t.Legible := by
  have htrue : IsWord (blockLabel "if.true" n) := isWord_blockLabel (by decide) n
  induction h with
  | fall => exact ⟨exit, rfl, he⟩
  | retNothing => exact ⟨_, rfl, .retNothing⟩
  | ret hv _ hs => exact ⟨_, rfl, .ret (hv.legible hE) hs⟩
  | define _ _ _ ih | perform _ _ _ ih | bind _ _ _ ih => exact ih hb
  | when hc hty => exact ⟨_, rfl, .brIf (hc.legible hE) hty htrue (isWord_nextLabel n _)⟩
  | either hc hty =>
    have hbase := isWord_blockLabel (hb _ List.mem_cons_self)
    exact ⟨_, rfl, .brIf (hc.legible hE) hty htrue (hbase _)⟩

/-- The block that a typed flow starts in is legible. -/
theorem legible_block (hE : E.Named) (h : g.Typed E k Δ k') (hΔ : Δ.Scalar)
    (hb : ∀ b ∈ g.bases, IsWord b) (n : Nat) {exit : Terminator} (he : exit.Legible)
    {label : String} (hl : IsWord label) :
    Block.Legible ⟨label, g.instrs, g.terminator n (some exit)⟩ :=
  ⟨hl, h.legible_instrs hE hΔ, h.legible_terminator hE hb n he⟩

/-- The new blocks of a typed flow are legible. -/
theorem legible_blocks (hE : E.Named) (h : g.Typed E k Δ k') (hΔ : Δ.Scalar)
    (hb : ∀ b ∈ g.bases, IsWord b) (n : Nat) {exit : Terminator} (he : exit.Legible) :
    ∀ b ∈ g.blocks n (some exit), b.Legible := by
  have htrue : ∀ i, IsWord (blockLabel "if.true" i) := isWord_blockLabel (by decide)
  have hnext : ∀ i, IsWord (blockLabel "if.next" i) := isWord_blockLabel (by decide)
  induction h generalizing n exit with
  | fall | retNothing | ret => intro b hb; cases hb
  | define _ _ _ ih | perform _ _ _ ih => exact ih hΔ hb n he
  | bind _ hs _ ih => exact ih (hΔ.bind _ hs) hb n he
  | @when _ _ _ _ _ yes rest _ _ hyes hrest ihy ih =>
    obtain ⟨hby, hbr⟩ := List.forall_mem_append.mp hb
    have hgoOn : (Terminator.br (nextLabel n yes)).Legible := .br (isWord_nextLabel n yes)
    simp only [blocks, List.cons_append, List.forall_mem_cons, List.forall_mem_append]
    exact ⟨hyes.legible_block hE hΔ hby _ hgoOn (htrue _), ihy hΔ hby _ hgoOn,
      hrest.legible_block hE hΔ hbr _ he (hnext _), ih hΔ hbr _ he⟩
  | @either _ _ _ _ _ _ yes no rest base _ _ hyes hno hrest ihy ihn ih =>
    obtain ⟨hbase, hb⟩ := List.forall_mem_cons.mp hb
    obtain ⟨hby, hb⟩ := List.forall_mem_append.mp hb
    obtain ⟨hbn, hbr⟩ := List.forall_mem_append.mp hb
    have hgoOn : (Terminator.br (nextLabel n yes)).Legible := .br (isWord_nextLabel n yes)
    simp only [blocks, List.cons_append, List.append_assoc, List.forall_mem_cons,
      List.forall_mem_append]
    exact ⟨hyes.legible_block hE hΔ hby _ hgoOn (htrue _), ihy hΔ hby _ hgoOn,
      hrest.legible_block hE hΔ hbr _ he (hnext _),
      hno.legible_block hE hΔ hbn _ hgoOn (isWord_blockLabel hbase _), ihn hΔ hbn _ hgoOn,
      ih hΔ hbr _ he⟩

end Typed
end Flow

/-! ## Functions -/

theorem Function.legible_ending (ret : Ty) : (ending ret).Legible := by
  unfold ending
  split
  · exact .retNothing
  · exact .unreachable

/-- The function of a typed flow is legible. -/
theorem Function.legible_ofFlow (hE : E.Named) {g : Flow} (hg : g.Typed E 0 .empty g.defs)
    (hb : ∀ b ∈ g.bases, IsWord b) {name : String} (hname : IsName name)
    (hret : E.ret.isPtr = false) (hps : ∀ p ∈ E.params, p.2.isScalar = true) :
    (ofFlow name E.ret E.params g).Legible where
  name := hname
  ret := hret
  params p hp := ⟨hE.params p hp, hps p hp⟩
  blocks := by
    have hΔ : Ctx.Scalar .empty := by simp [Ctx.Scalar, Ctx.empty]
    have hending := legible_ending E.ret
    refine List.forall_mem_cons.mpr ⟨?_, hg.legible_blocks hE hΔ hb 1 hending⟩
    exact hg.legible_block hE hΔ hb 1 hending (by decide)
  temps := by
    have hdefined := (singleAssignment_ofFlow hg name).defined.length_eq
    simpa using hdefined.symm

end Typed
end IR

/-- Labels start with words that lowering has chosen. -/
theorem Lowers.bases_subset {ret : IR.Ty} {S S' : Scopes Binding} {n n' : Nat} {ss : List Stmt}
    {g : IR.Flow} (h : Lowers ret S n ss g S' n') : g.bases ⊆ ["if.false", "if.guard"] := by
  induction h with
  | nil | returnNothing => intro b hb; cases hb
  | returnValue => simp [IR.Flow.bases]
  | value _ _ ih | voidCall _ _ _ _ ih | assign _ _ _ ih => simpa [IR.Flow.bases] using ih
  | when _ _ _ _ ihy ih =>
    rw [IR.Flow.bases_emits]
    exact List.append_subset.mpr ⟨ihy, ih⟩
  | either _ _ _ _ _ ihy ihn ih | chain _ _ _ _ _ ihy ihn ih =>
    rw [IR.Flow.bases_emits]
    refine List.cons_subset.mpr ⟨by simp, ?_⟩
    exact List.append_subset.mpr ⟨ihy, List.append_subset.mpr ⟨ihn, ih⟩⟩

theorem IR.Flow.bases_bindParams (n : Nat) (ps : List (String × IR.Ty)) (g : IR.Flow) :
    (bindParams n ps g).bases = g.bases := by
  induction ps generalizing n with
  | nil => rfl
  | cons p ps ih => exact ih (n + 1)

/-! ## Programs -/

/-- Functions and parameters have names. -/
def Program.Named (p : Program) : Prop :=
  ∀ d ∈ p, IsName d.name ∧ ∀ q ∈ d.params, IsName q.name

theorem Program.Named.env {p : Program} (h : p.Named) {d : Declaration} (hd : d ∈ p) :
    (d.env p).Named where
  params := by
    intro q hq
    obtain ⟨q', hq', rfl⟩ := List.mem_map.mp hq
    exact (h d hd).2 q' hq'
  sigs := by
    intro sig hsig
    obtain ⟨d', hd', rfl⟩ := List.mem_map.mp hsig
    exact ⟨(h d' hd').1, d'.scalar_header⟩

/-- The module of a program is legible. -/
theorem Program.legible_of_lower {p : Program} {name : String} {m : IR.Module}
    (h : p.lower name = .ok m) (hp : p.Named) : m.Legible := by
  intro f hf
  obtain ⟨d, hd, g, hg, rfl⟩ := exists_lowersTo h hf
  have hbases : ∀ b ∈ g.bases, IsWord b := by
    obtain ⟨-, body, S', n', hbody, rfl⟩ := hg
    rw [IR.Flow.bases_bindParams]
    have hwords : ∀ b ∈ ["if.false", "if.guard"], IsWord b := by decide
    exact fun b hb => hwords b (hbody.bases_subset hb)
  refine IR.Function.legible_ofFlow (hp.env hd) hg.typed hbases (hp d hd).1 ?_ ?_
  · change d.ret.isPtr = false
    rcases d.scalar_ret with hv | hs
    · rw [IR.Ty.isVoid_iff.mp hv]
      rfl
    · exact IR.Ty.isPtr_of_isScalar hs
  · intro q hq
    obtain ⟨q', -, rfl⟩ := List.mem_map.mp hq
    exact q'.ty.isScalar_lower

end ProcLang

import Mathlib.Data.List.Nodup
import ProcLang.Proofs.IR.Run
import ProcLang.Proofs.Lowering.Functions

/-!
# Control flow of lowered functions

Every block of a lowered function ends, branches only lead to blocks of the function and never back
to its entry, and no run of a function comes twice through the same block. The blocks are not made
in the order in which they are run: the block behind a conditional is made before the alternative
of the conditional. `Flow.inOrder` lists them in an order that branches follow.

## Main definitions

* `Block.targets` — the labels that a block may go on to.
* `Forward` — blocks in an order such that branches only go to later ones.
* `Function.WellBranched` — what holds of the blocks of a lowered function.
* `Module.trace` — the blocks that one run of a function comes through.

## Main statements

* `Program.wellBranched_of_lower`.
-/
namespace ProcLang
namespace IR

/-- The labels that a block may go on to. -/
def Block.targets (b : Block) : List String := b.terminator.elim [] Terminator.targets

/-- Every branch of these blocks goes to a later one of them, or to a block that is labelled with
one of `behind`. -/
def Forward (behind : List String) : List Block → Prop
  | [] => True
  | b :: bs => (∀ l ∈ b.targets, l ∈ bs.map (·.label) ++ behind) ∧ Forward behind bs

/-- The blocks of a function are well connected. -/
structure Function.WellBranched (f : Function) : Prop where
  /-- There is a first block. -/
  entry : ∃ b bs, f.blocks = b :: bs ∧ b.label = entryLabel
  /-- A label stands for one block. -/
  labels : (f.blocks.map (·.label)).Nodup
  ended : ∀ b ∈ f.blocks, b.terminator.isSome
  /-- Branches lead to blocks of the function, and not to the first one. -/
  targets : ∀ b ∈ f.blocks, ∀ l ∈ b.targets, l ≠ entryLabel ∧ ∃ b' ∈ f.blocks, b'.label = l
  /-- The blocks have an order that all branches follow. -/
  order : ∃ bs, bs.Perm f.blocks ∧ ∀ before b after, bs = before ++ b :: after →
    ∀ l ∈ b.targets, ∃ b' ∈ after, b'.label = l

/-- The labels of the blocks that a run of a function comes through from block `b` on, calls left
out. -/
def Module.trace (m : Module) : Nat → Function → Activation → Block → List String
  | 0, _, _, _ => []
  | fuel + 1, f, a, b => b.label ::
    match (b.run (m.run fuel) f.name a).run with
    | some (.ok (.jump label, a)) =>
      match f.blockOf? label with
      | some next => m.trace fuel f a next
      | none => []
    | _ => []

/-! ## Forward lists of blocks -/

namespace Forward

theorem append {behind : List String} {bs bs' : List Block}
    (h : Forward (bs'.map (·.label) ++ behind) bs) (h' : Forward behind bs') :
    Forward behind (bs ++ bs') := by
  induction bs with
  | nil => exact h'
  | cons b bs ih =>
    refine ⟨?_, ih h.2⟩
    intro l hl
    simpa using h.1 l hl

theorem mono {behind behind' : List String} (hsub : behind ⊆ behind') {bs : List Block}
    (h : Forward behind bs) : Forward behind' bs := by
  induction bs with
  | nil => trivial
  | cons b bs ih =>
    refine ⟨?_, ih h.2⟩
    intro l hl
    rcases List.mem_append.mp (h.1 l hl) with hbs | hbehind
    · exact List.mem_append_left _ hbs
    · exact List.mem_append_right _ (hsub hbehind)

theorem split {before : List Block} {b : Block} {after : List Block}
    (h : Forward [] (before ++ b :: after)) : ∀ l ∈ b.targets, ∃ b' ∈ after, b'.label = l := by
  induction before with
  | nil =>
    intro l hl
    simpa using h.1 l hl
  | cons _ before ih => exact ih h.2

end Forward

namespace Flow

/-- The new blocks of a flow, numbered from `n` on, in the order in which they are run. -/
def inOrder (n : Nat) (exit : Option Terminator) : Flow → List Block
  | .fall | .ret _ => []
  | .emit _ rest | .bind _ _ rest => rest.inOrder n exit
  | .when _ yes rest =>
    let next := n + 1 + yes.size
    let goOn := some (.br (nextLabel n yes))
    yes.block "if.true" n (n + 1) goOn :: yes.inOrder (n + 1) goOn ++
      rest.block "if.next" next (next + 1) exit :: rest.inOrder (next + 1) exit
  | .either _ yes base no rest =>
    let next := n + 1 + yes.size
    let behind := next + 2 + no.size
    let goOn := some (.br (nextLabel n yes))
    yes.block "if.true" n (n + 1) goOn :: yes.inOrder (n + 1) goOn ++
      no.block base (next + 1) (next + 2) goOn :: no.inOrder (next + 2) goOn ++
      rest.block "if.next" next behind exit :: rest.inOrder behind exit

theorem perm_inOrder (g : Flow) (n : Nat) (exit : Option Terminator) :
    (g.inOrder n exit).Perm (g.blocks n exit) := by
  induction g generalizing n exit with
  | fall | ret => exact .nil
  | emit i rest ih => exact ih n exit
  | bind k value rest ih => exact ih n exit
  | when cond yes rest ihy ihr =>
    exact ((ihy ..).cons _).append ((ihr ..).cons _)
  | either cond yes base no rest ihy ihn ihr =>
    simp only [inOrder, blocks, List.cons_append, List.append_assoc]
    refine ((ihy ..).append ?_).cons _
    refine (((ihn ..).append ((ihr ..).cons _)).cons _).trans ?_
    exact (List.perm_middle.cons _).trans (.swap ..)

/-- The block that a flow starts in and then its new blocks are in an order that branches follow. -/
theorem forward_inOrder (g : Flow) (n : Nat) (exit : Option Terminator) (label : String)
    (is : List Instr) :
    Forward (exit.elim [] Terminator.targets)
      (⟨label, is, g.terminator n exit⟩ :: g.inOrder n exit) := by
  induction g generalizing n exit label is with
  | fall => exact ⟨fun l hl => hl, trivial⟩
  | ret value => exact ⟨fun l hl => (nomatch hl), trivial⟩
  | emit i rest ih => exact ih ..
  | bind k value rest ih => exact ih ..
  | when cond yes rest ihy ihr =>
    refine ⟨?_, .append (.mono ?_ (ihy ..)) (ihr ..)⟩
    · intro l hl
      obtain rfl | rfl : l = blockLabel "if.true" n ∨ l = nextLabel n yes := by
        simpa [Block.targets, terminator, Terminator.targets] using hl
      · simp [inOrder, block]
      · simp [inOrder, block, nextLabel]
    · simp [Terminator.targets, block, nextLabel]
  | either cond yes base no rest ihy ihn ihr =>
    refine ⟨?_, .append (.append (.mono ?_ (ihy ..)) (.mono ?_ (ihn ..))) (ihr ..)⟩
    · intro l hl
      obtain rfl | rfl : l = blockLabel "if.true" n ∨ l = blockLabel base (n + 2 + yes.size) := by
        simpa [Block.targets, terminator, Terminator.targets] using hl
      · simp [inOrder, block]
      · have hn : n + 2 + yes.size = n + 1 + yes.size + 1 := by omega
        simp [inOrder, block, hn]
    · simp [Terminator.targets, block, nextLabel]
    · simp [Terminator.targets, block, nextLabel]

theorem isSome_terminator (g : Flow) (n : Nat) {exit : Option Terminator} (he : exit.isSome) :
    (g.terminator n exit).isSome := by
  induction g with
  | fall => exact he
  | ret | when | either => rfl
  | emit i rest ih => exact ih
  | bind k value rest ih => exact ih

theorem ended_blocks (g : Flow) (n : Nat) {exit : Option Terminator} (he : exit.isSome) :
    ∀ b ∈ g.blocks n exit, b.terminator.isSome := by
  induction g generalizing n exit with
  | fall | ret => intro b hb; cases hb
  | emit i rest ih => exact ih n he
  | bind k value rest ih => exact ih n he
  | when cond yes rest ihy ihr =>
    simp only [blocks, List.cons_append, List.forall_mem_cons, List.forall_mem_append]
    exact ⟨isSome_terminator _ _ rfl, ihy _ rfl, isSome_terminator _ _ he, ihr _ he⟩
  | either cond yes base no rest ihy ihn ihr =>
    simp only [blocks, List.cons_append, List.append_assoc, List.forall_mem_cons,
      List.forall_mem_append]
    exact ⟨isSome_terminator _ _ rfl, ihy _ rfl, isSome_terminator _ _ he,
      isSome_terminator _ _ rfl, ihn _ rfl, ihr _ he⟩

/-- The labels of new blocks end with their indices. -/
theorem labelled_blocks (g : Flow) (n : Nat) (exit : Option Terminator) :
    LabelledFrom n (g.blocks n exit) := by
  induction g generalizing n exit with
  | fall | ret => trivial
  | emit _ rest ih => exact ih n exit
  | bind k value rest ih => exact ih n exit
  | when cond yes rest ihy ihr =>
    refine .append ⟨⟨_, rfl⟩, ihy ..⟩ ?_ ⟨⟨_, rfl⟩, ihr ..⟩
    simp
    omega
  | either cond yes base no rest ihy ihn ihr =>
    simp only [blocks, List.append_assoc]
    refine .append ⟨⟨_, rfl⟩, ihy ..⟩ ?_ ⟨⟨_, rfl⟩, .append ⟨⟨_, rfl⟩, ihn ..⟩ ?_ (ihr ..)⟩
    · simp
      omega
    · simp
      omega

end Flow

/-! ## Functions of flows -/

namespace Function

theorem labelled_ofFlow (name : String) (ret : Ty) (params : List (String × Ty)) (g : Flow) :
    (ofFlow name ret params g).Labelled := by
  intro i b hb
  have h : LabelledFrom 0 (ofFlow name ret params g).blocks :=
    ⟨⟨"entry", entryLabel_eq⟩, g.labelled_blocks 1 _⟩
  simpa using h.getElem? hb

theorem targets_ending (ret : Ty) : (ending ret).targets = [] := by
  unfold ending
  split <;> rfl

theorem wellBranched_ofFlow (name : String) (ret : Ty) (params : List (String × Ty)) (g : Flow) :
    (ofFlow name ret params g).WellBranched := by
  have hlabelled := labelled_ofFlow name ret params g
  have hforward := g.forward_inOrder 1 (some (ending ret)) entryLabel g.instrs
  rw [Option.elim_some, targets_ending] at hforward
  have hperm := (g.perm_inOrder 1 (some (ending ret))).cons
    ⟨entryLabel, g.instrs, g.terminator 1 (some (ending ret))⟩
  refine ⟨⟨_, _, rfl, rfl⟩, hlabelled.nodup, ?_, ?_, _, hperm, ?_⟩
  · refine List.forall_mem_cons.mpr ⟨g.isSome_terminator 1 rfl, g.ended_blocks 1 rfl⟩
  · intro b hb l hl
    obtain ⟨before, after, hsplit⟩ := List.append_of_mem (hperm.mem_iff.mpr hb)
    rw [hsplit] at hforward
    obtain ⟨b', hb', rfl⟩ := hforward.split l hl
    -- What stands behind a block of the order is not its first block.
    have hnew : b' ∈ g.blocks 1 (some (ending ret)) := by
      rw [← (g.perm_inOrder 1 _).mem_iff]
      cases before with
      | nil =>
        obtain ⟨-, rfl⟩ := List.cons_eq_cons.mp hsplit
        exact hb'
      | cons _ before =>
        rw [(List.cons_eq_cons.mp hsplit).2]
        simp [hb']
    refine ⟨?_, b', List.mem_cons_of_mem _ hnew, rfl⟩
    obtain ⟨i, hi⟩ := List.getElem?_of_mem hnew
    obtain ⟨base, hbase⟩ := (g.labelled_blocks 1 _).getElem? hi
    rw [hbase, entryLabel_eq]
    intro heq
    have := blockLabel_index heq
    omega
  · intro before b after hsplit
    rw [hsplit] at hforward
    exact hforward.split

end Function

/-! ## Runs -/

theorem Terminator.mem_targets_of_run {t : Terminator} {name label : String} {a : Activation}
    (h : t.run name a = .ok (.jump label)) : label ∈ t.targets := by
  cases t with
  | ret value =>
    cases value with
    | none => simp [Terminator.run] at h
    | some v => cases hv : a.get v <;> simp [Terminator.run, hv, Except.map] at h
  | br target =>
    cases h
    simp [targets]
  | brIf cond yes no =>
    cases hc : a.get cond with
    | error e => simp [Terminator.run, hc, bind, Except.bind] at h
    | ok d =>
      simp only [Terminator.run, hc, bind, Except.bind] at h
      split at h <;> cases h <;> simp [targets]
  | unreachable => cases h

/-- A block only goes on to one of its targets. -/
theorem Block.mem_targets_of_run {b : Block} {call : String → List Datum → Run (Option Datum)}
    {name label : String} {a a' : Activation}
    (h : (b.run call name a).run = some (.ok (.jump label, a'))) : label ∈ b.targets := by
  obtain ⟨a₁, -, h⟩ := Run.seq_eq_ok.mp h
  cases ht : b.terminator with
  | none => simp [ht] at h
  | some t =>
    simp only [ht, Run.seq_eq_ok, Run.run_ofExcept, Run.run_pure, Option.some.injEq,
      Except.ok.injEq, Prod.mk.injEq] at h
    obtain ⟨exit, hexit, rfl, rfl⟩ := h
    rw [Block.targets, ht]
    exact Terminator.mem_targets_of_run hexit

/-- A label stands for one block, so that the block found is the one that has the label. -/
theorem Function.eq_of_blockOf? {f : Function} (hl : (f.blocks.map (·.label)).Nodup)
    {b next : Block} (hb : b ∈ f.blocks) (h : f.blockOf? b.label = some next) : next = b := by
  have hlabel : next.label = b.label := by simpa using List.find?_some h
  exact List.inj_on_of_nodup_map hl (List.mem_of_find?_eq_some h) hb hlabel

/-- The blocks of a run follow one another in the order of the blocks. -/
theorem Module.trace_sublist {f : Function} (hl : (f.blocks.map (·.label)).Nodup) {bs : List Block}
    (hperm : bs.Perm f.blocks)
    (hbs : ∀ before b after, bs = before ++ b :: after →
      ∀ l ∈ b.targets, ∃ b' ∈ after, b'.label = l)
    (m : Module) (fuel : Nat) (a : Activation) {before : List Block} {b : Block}
    {after : List Block} (hsplit : bs = before ++ b :: after) :
    (m.trace fuel f a b).Sublist ((b :: after).map (·.label)) := by
  induction fuel generalizing a before b after with
  | zero => exact List.nil_sublist _
  | succ fuel ih =>
    refine List.Sublist.cons_cons _ ?_
    split
    next label a' hrun =>
      obtain ⟨b', hb', rfl⟩ := hbs before b after hsplit label (Block.mem_targets_of_run hrun)
      cases hnext : f.blockOf? b'.label with
      | none => exact List.nil_sublist _
      | some next =>
        have hmem : b' ∈ f.blocks := hperm.mem_iff.mp (by rw [hsplit]; simp [hb'])
        obtain rfl := Function.eq_of_blockOf? hl hmem hnext
        obtain ⟨between, rest, rfl⟩ := List.append_of_mem hb'
        have hrest : bs = (before ++ b :: between) ++ next :: rest := by simp [hsplit]
        rw [List.map_append]
        exact (ih a' hrest).trans (List.sublist_append_right _ _)
    · exact List.nil_sublist _

/-- No run comes twice through the same block. -/
theorem Function.WellBranched.nodup_trace {f : Function} (h : f.WellBranched) (m : Module)
    (fuel : Nat) (a : Activation) {b : Block} (hb : b ∈ f.blocks) : (m.trace fuel f a b).Nodup := by
  obtain ⟨bs, hperm, hbs⟩ := h.order
  obtain ⟨before, after, hsplit⟩ := List.append_of_mem (hperm.mem_iff.mpr hb)
  have hnodup : (bs.map (·.label)).Nodup := (hperm.map _).nodup_iff.mpr h.labels
  rw [hsplit, List.map_append] at hnodup
  exact (List.nodup_append.mp hnodup).2.1.sublist
    (m.trace_sublist h.labels hperm hbs fuel a hsplit)

end IR

/-- Every function of a lowered program is well connected, and no run of it comes twice through the
same block. -/
theorem Program.wellBranched_of_lower {p : Program} {name : String} {m : IR.Module}
    (h : p.lower name = .ok m) :
    ∀ f ∈ m.functions, f.WellBranched ∧
      ∀ fuel a, ∀ b ∈ f.blocks, (m.trace fuel f a b).Nodup := by
  intro f hf
  obtain ⟨d, -, g, -, rfl⟩ := exists_lowersTo h hf
  have hwell := IR.Function.wellBranched_ofFlow d.name d.ret d.irParams g
  exact ⟨hwell, fun fuel a b hb => hwell.nodup_trace m fuel a hb⟩

/-- A program whose functions have nested conditionals. -/
theorem Program.wellBranched_sample : ∃ m, sample.lower "sample" = .ok m ∧
    ∀ f ∈ m.functions, f.WellBranched ∧ ∀ fuel a, ∀ b ∈ f.blocks, (m.trace fuel f a b).Nodup := by
  obtain ⟨m, hm⟩ := Program.exists_lower_sample
  exact ⟨m, hm, wellBranched_of_lower hm⟩

end ProcLang

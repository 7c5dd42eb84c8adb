import ProcLang.Proofs.IR.Building
import ProcLang.Proofs.IR.Label

/-!
# Structured control flow

A `Flow` is code with its conditionals still nested in one another. It is laid out as blocks by
writing its straight part at the end of a block that is there already and by adding new blocks
behind all others: for a conditional the block of the first case, the blocks that this case needs,
the block that follows the conditional, and then those of the second case.

## Main definitions

* `Flow` — structured code; `Flow.andThen` is one after the other.
* `Flow.instrs`, `Flow.terminator` — what goes into the block that is there already.
* `Flow.blocks` — the new blocks, numbered from a given index on.
* `Flow.spread` — all blocks behind the layout of a flow.
-/
namespace ProcLang.IR

/-- Structured code. -/
inductive Flow where
  /-- Goes on with what follows. -/
  | fall
  | ret (value : Option Value)
  | emit (i : Instr) (rest : Flow)
  /-- New storage for a value, with temporary `k` pointing to it. -/
  | bind (k : Nat) (value : Value) (rest : Flow)
  /-- A conditional with one case. -/
  | when (cond : Value) (yes rest : Flow)
  /-- A conditional with two cases; the first block of the second one has a label of its own. -/
  | either (cond : Value) (yes : Flow) (base : String) (no rest : Flow)

namespace Flow

/-- The pointer to the storage of `value`. -/
def slot (k : Nat) (value : Value) : Value := ⟨.temp k, .ptr value.ty⟩

/-- Reserves storage and puts a value there. -/
def reserve (k : Nat) (value : Value) : List Instr :=
  [⟨some (slot k value), .alloca value.ty⟩, ⟨none, .store value (slot k value)⟩]

/-- Instructions and then a flow. -/
def emits (is : List Instr) (g : Flow) : Flow := is.foldr .emit g

/-- One flow after the other. -/
def andThen : Flow → Flow → Flow
  | .fall, g => g
  | .ret value, _ => .ret value
  | .emit i rest, g => .emit i (rest.andThen g)
  | .bind k value rest, g => .bind k value (rest.andThen g)
  | .when cond yes rest, g => .when cond yes (rest.andThen g)
  | .either cond yes base no rest, g => .either cond yes base no (rest.andThen g)

/-- Whether a flow never goes on with what follows because it ends with a return. Returns inside
of conditionals do not count. -/
def returns : Flow → Bool
  | .fall => false
  | .ret _ => true
  | .emit _ rest | .bind _ _ rest | .when _ _ rest | .either _ _ _ _ rest => rest.returns

/-- How many values a flow defines. -/
def defs : Flow → Nat
  | .fall | .ret _ => 0
  | .emit i rest => results [i] + rest.defs
  | .bind _ _ rest => rest.defs + 1
  | .when _ yes rest => yes.defs + rest.defs
  | .either _ yes _ no rest => yes.defs + no.defs + rest.defs

/-- How many new blocks a flow needs. -/
def size : Flow → Nat
  | .fall | .ret _ => 0
  | .emit _ rest | .bind _ _ rest => rest.size
  | .when _ yes rest => yes.size + rest.size + 2
  | .either _ yes _ no rest => yes.size + no.size + rest.size + 3

/-! ## Layout -/

/-- The instructions before the first conditional. -/
def instrs : Flow → List Instr
  | .fall | .ret _ | .when _ _ _ | .either _ _ _ _ _ => []
  | .emit i rest => i :: rest.instrs
  | .bind k value rest => reserve k value ++ rest.instrs

/-- The label of the block that follows a conditional whose first block has index `n`. -/
def nextLabel (n : Nat) (yes : Flow) : String := blockLabel "if.next" (n + 1 + yes.size)

/-- How the block of the first instructions ends, if new blocks are numbered from `n` on and `exit`
stands for what follows. -/
def terminator (n : Nat) (exit : Option Terminator) : Flow → Option Terminator
  | .fall => exit
  | .ret value => some (.ret value)
  | .emit _ rest | .bind _ _ rest => rest.terminator n exit
  | .when cond yes _ => some (.brIf cond (blockLabel "if.true" n) (nextLabel n yes))
  | .either cond yes base _ _ =>
    some (.brIf cond (blockLabel "if.true" n) (blockLabel base (n + 2 + yes.size)))

/-- A block for a flow. -/
def block (base : String) (i n : Nat) (exit : Option Terminator) (g : Flow) : Block :=
  ⟨blockLabel base i, g.instrs, g.terminator n exit⟩

/-- The new blocks of a flow, numbered from `n` on. -/
def blocks (n : Nat) (exit : Option Terminator) : Flow → List Block
  | .fall | .ret _ => []
  | .emit _ rest | .bind _ _ rest => rest.blocks n exit
  | .when _ yes rest =>
    let next := n + 1 + yes.size
    let goOn := some (.br (nextLabel n yes))
    yes.block "if.true" n (n + 1) goOn :: yes.blocks (n + 1) goOn ++
      rest.block "if.next" next (next + 1) exit :: rest.blocks (next + 1) exit
  | .either _ yes base no rest =>
    let next := n + 1 + yes.size
    let behind := next + 2 + no.size
    let goOn := some (.br (nextLabel n yes))
    yes.block "if.true" n (n + 1) goOn :: yes.blocks (n + 1) goOn ++
      rest.block "if.next" next behind exit ::
      no.block base (next + 1) (next + 2) goOn :: no.blocks (next + 2) goOn ++
      rest.blocks behind exit

/-- The block that a flow ends in if it starts in block `b`. -/
def last (b n : Nat) : Flow → Nat
  | .fall | .ret _ => b
  | .emit _ rest | .bind _ _ rest => rest.last b n
  | .when _ yes rest => rest.last (n + 1 + yes.size) (n + 2 + yes.size)
  | .either _ yes _ no rest => rest.last (n + 1 + yes.size) (n + 3 + yes.size + no.size)

/-- A block with a flow written at its end. -/
def into (g : Flow) (n : Nat) (exit : Option Terminator) (b : Block) : Block :=
  ⟨b.label, b.instrs ++ g.instrs, g.terminator n exit⟩

/-- Blocks with a flow laid out from the end of block `b` on. -/
def spread (g : Flow) (exit : Option Terminator) (bs : List Block) (b : Nat) : List Block :=
  bs.modify b (g.into bs.length exit) ++ g.blocks bs.length exit

@[simp] theorem length_blocks (g : Flow) (n : Nat) (exit : Option Terminator) :
    (g.blocks n exit).length = g.size := by
  induction g generalizing n exit with
  | fall | ret => rfl
  | emit i rest ih => exact ih n exit
  | bind k value rest ih => exact ih n exit
  | when cond yes rest ihy ihr =>
    simp only [blocks, size, List.length_append, List.length_cons, ihy, ihr]
    omega
  | either cond yes base no rest ihy ihn ihr =>
    simp only [blocks, size, List.length_append, List.length_cons, ihy, ihn, ihr]
    omega

@[simp] theorem length_spread (g : Flow) (exit : Option Terminator) (bs : List Block) (b : Nat) :
    (g.spread exit bs b).length = bs.length + g.size := by
  simp [spread]

/-! ## Instructions before a flow -/

section Emits

variable (is : List Instr) (g : Flow)

@[simp] theorem instrs_emits : (emits is g).instrs = is ++ g.instrs := by
  induction is with
  | nil => rfl
  | cons i is ih => exact congrArg (i :: ·) ih

@[simp] theorem terminator_emits (n : Nat) (exit : Option Terminator) :
    (emits is g).terminator n exit = g.terminator n exit := by
  induction is with
  | nil => rfl
  | cons i is ih => exact ih

@[simp] theorem blocks_emits (n : Nat) (exit : Option Terminator) :
    (emits is g).blocks n exit = g.blocks n exit := by
  induction is with
  | nil => rfl
  | cons i is ih => exact ih

@[simp] theorem defs_emits : (emits is g).defs = results is + g.defs := by
  induction is with
  | nil => simp [emits]
  | cons i is ih =>
    have h : results (i :: is) = results [i] + results is := results_append [i] is
    rw [h, Nat.add_assoc, ← ih]
    rfl

@[simp] theorem returns_emits : (emits is g).returns = g.returns := by
  induction is with
  | nil => rfl
  | cons i is ih => exact ih

@[simp] theorem last_emits (b n : Nat) : (emits is g).last b n = g.last b n := by
  induction is with
  | nil => rfl
  | cons i is ih => exact ih

@[simp] theorem andThen_emits (g' : Flow) : (emits is g).andThen g' = emits is (g.andThen g') := by
  induction is with
  | nil => rfl
  | cons i is ih => exact congrArg (emit i) ih

theorem emits_nil : emits [] g = g := rfl

theorem emits_append (is' : List Instr) : emits (is ++ is') g = emits is (emits is' g) :=
  List.foldr_append

end Emits

/-! ## Spreading a flow step by step -/

variable {exit : Option Terminator} {bs : List Block} {b : Nat}

/-- Nothing in an open block. -/
theorem spread_fall {block : Block} (hb : bs[b]? = some block) (ht : block.terminator = none) :
    fall.spread none bs b = bs := by
  obtain ⟨hlt, rfl⟩ := List.getElem?_eq_some_iff.mp hb
  have hinto : fall.into bs.length none bs[b] = bs[b] := by
    simp only [into, instrs, List.append_nil, terminator, ← ht]
  rw [spread, blocks, List.append_nil, modify_eq_set hb, hinto, List.set_getElem_self]

theorem spread_emits (is : List Instr) (g : Flow) :
    (emits is g).spread exit bs b = g.spread exit (bs.modify b (·.append is)) b := by
  have hinto : (emits is g).into bs.length exit = g.into bs.length exit ∘ (·.append is) := by
    funext block
    simp [into, Block.append]
  simp only [spread, hinto, blocks_emits, List.modify_modify_eq, List.length_modify]

theorem spread_emit (i : Instr) (rest : Flow) :
    (emit i rest).spread exit bs b = rest.spread exit (bs.modify b (·.append [i])) b :=
  spread_emits [i] rest

theorem spread_bind (k : Nat) (value : Value) (rest : Flow) :
    (bind k value rest).spread exit bs b =
      rest.spread exit (bs.modify b (·.append (reserve k value))) b :=
  spread_emits (reserve k value) rest

/-- A flow in a block that was empty. -/
theorem spread_empty {l r : List Block} {i : Nat} (h : i = l.length) (g : Flow) (label : String) :
    g.spread exit (l ++ .empty label :: r) i =
      l ++ ⟨label, g.instrs, g.terminator (l.length + r.length + 1) exit⟩ :: r ++
        g.blocks (l.length + r.length + 1) exit := by
  rw [spread, modify_at h]
  simp [into, Block.empty, Nat.add_assoc]

theorem spread_when (cond : Value) (yes rest : Flow) :
    (when cond yes rest).spread exit bs b =
      rest.spread exit
        (yes.spread (some (.br (nextLabel bs.length yes)))
            (bs.modify b (·.ended (.brIf cond (blockLabel "if.true" bs.length)
              (nextLabel bs.length yes))) ++ [.empty (blockLabel "if.true" bs.length)])
            bs.length ++ [.empty (nextLabel bs.length yes)])
        (bs.length + 1 + yes.size) := by
  have hinto : (when cond yes rest).into bs.length exit = (·.ended (.brIf cond
      (blockLabel "if.true" bs.length) (nextLabel bs.length yes))) := by
    funext block
    simp [into, instrs, terminator, Block.ended]
  have hn : bs.length + (yes.size + 1) + 1 = bs.length + 1 + yes.size + 1 := by omega
  rw [spread_empty (by simp), spread_empty (by simp), spread, hinto]
  simp [blocks, block, nextLabel, hn]

/-- Two flows in blocks that were empty, the second one first. -/
theorem spread_spread_empty {l : List Block} {e : Option Terminator} {i j : Nat}
    (hi : i = l.length) (hj : j = i + 1) (g h : Flow) (label label' : String) :
    g.spread exit (h.spread e (l ++ [.empty label] ++ [.empty label']) j) i =
      l ++ ⟨label, g.instrs, g.terminator (i + 2 + h.size) exit⟩ ::
        ⟨label', h.instrs, h.terminator (i + 2) e⟩ :: h.blocks (i + 2) e ++
        g.blocks (i + 2 + h.size) exit := by
  have hh : h.spread e (l ++ [.empty label] ++ [.empty label']) j =
      l ++ .empty label ::
        (⟨label', h.instrs, h.terminator (i + 2) e⟩ :: h.blocks (i + 2) e) := by
    rw [spread_empty (by simp [hi, hj])]
    simp [hi]
  have hn : l.length + (h.size + 1) + 1 = i + 2 + h.size := by omega
  rw [hh, spread_empty hi]
  simp [hn]

theorem spread_either (cond : Value) (yes : Flow) (base : String) (no rest : Flow) :
    (either cond yes base no rest).spread exit bs b =
      rest.spread exit
        (no.spread (some (.br (nextLabel bs.length yes)))
          (yes.spread (some (.br (nextLabel bs.length yes)))
            (bs.modify b (·.ended (.brIf cond (blockLabel "if.true" bs.length)
              (blockLabel base (bs.length + 2 + yes.size)))) ++
                [.empty (blockLabel "if.true" bs.length)])
            bs.length ++ [.empty (nextLabel bs.length yes)] ++
              [.empty (blockLabel base (bs.length + 2 + yes.size))])
          (bs.length + 2 + yes.size))
        (bs.length + 1 + yes.size) := by
  have hinto : (either cond yes base no rest).into bs.length exit = (·.ended (.brIf cond
      (blockLabel "if.true" bs.length) (blockLabel base (bs.length + 2 + yes.size)))) := by
    funext block
    simp [into, instrs, terminator, Block.ended]
  have hn : bs.length + 2 + yes.size = bs.length + 1 + yes.size + 1 := by omega
  rw [spread_spread_empty (by simp) hn, spread_empty (by simp), spread, hinto]
  simp [blocks, block, nextLabel, hn]

/-! ## Blocks outside of a flow -/

theorem getElem?_spread {i : Nat} (g : Flow) (hi : i < bs.length) (hne : i ≠ b) :
    (g.spread exit bs b)[i]? = bs[i]? := by
  rw [spread, List.getElem?_append_left (by simpa using hi),
    List.getElem?_modify_ne _ _ (Ne.symm hne)]

theorem modify_spread {i : Nat} (g : Flow) (hi : i < bs.length) (hne : i ≠ b)
    (f : Block → Block) : (g.spread exit bs b).modify i f = g.spread exit (bs.modify i f) b := by
  rw [spread, modify_append (by simpa using hi), List.modify_modify_ne _ _ _ (Ne.symm hne), spread,
    List.length_modify]

theorem spread_when_fall (cond : Value) (yes : Flow) :
    (when cond yes fall).spread none bs b =
      yes.spread (some (.br (nextLabel bs.length yes)))
        (bs.modify b (·.ended (.brIf cond (blockLabel "if.true" bs.length)
          (nextLabel bs.length yes))) ++ [.empty (blockLabel "if.true" bs.length)])
        bs.length ++ [.empty (nextLabel bs.length yes)] := by
  have hopen : (Block.empty (nextLabel bs.length yes)).terminator = none := rfl
  rw [spread_when]
  exact spread_fall (getElem?_concat (by simp)) hopen

theorem spread_either_fall (cond : Value) (yes : Flow) (base : String) (no : Flow) :
    (either cond yes base no fall).spread none bs b =
      no.spread (some (.br (nextLabel bs.length yes)))
        (yes.spread (some (.br (nextLabel bs.length yes)))
          (bs.modify b (·.ended (.brIf cond (blockLabel "if.true" bs.length)
            (blockLabel base (bs.length + 2 + yes.size)))) ++
              [.empty (blockLabel "if.true" bs.length)])
          bs.length ++ [.empty (nextLabel bs.length yes)] ++
            [.empty (blockLabel base (bs.length + 2 + yes.size))])
        (bs.length + 2 + yes.size) := by
  have hopen : (Block.empty (nextLabel bs.length yes)).terminator = none := rfl
  rw [spread_either]
  refine spread_fall ?_ hopen
  rw [getElem?_spread _ (by simp) (by omega), List.getElem?_append_left (by simp)]
  exact getElem?_concat (by simp)

/-! ## The end of a flow -/

theorem last_lt (g : Flow) {n : Nat} (hb : b < n) : g.last b n < n + g.size := by
  induction g generalizing b n with
  | fall | ret => exact hb
  | emit i rest ih => exact ih hb
  | bind k value rest ih => exact ih hb
  | when cond yes rest _ ihr =>
    have h := ihr (b := n + 1 + yes.size) (n := n + 2 + yes.size) (by omega)
    simp only [last, size]
    omega
  | either cond yes base no rest _ _ ihr =>
    have h := ihr (b := n + 1 + yes.size) (n := n + 3 + yes.size + no.size) (by omega)
    simp only [last, size]
    omega

theorem defs_andThen (g g' : Flow) (hg : g.returns = false) :
    (g.andThen g').defs = g.defs + g'.defs := by
  induction g with
  | fall => simp [andThen, defs]
  | ret => cases hg
  | emit i rest ih => simp only [andThen, defs, ih hg, Nat.add_assoc]
  | bind k value rest ih =>
    simp only [andThen, defs, ih hg]
    omega
  | when cond yes rest _ ihr => simp only [andThen, defs, ihr hg, Nat.add_assoc]
  | either cond yes base no rest _ _ ihr => simp only [andThen, defs, ihr hg, Nat.add_assoc]

theorem andThen_fall (g : Flow) : g.andThen fall = g := by
  induction g with
  | fall | ret => rfl
  | emit i rest ih => exact congrArg (emit i) ih
  | bind k value rest ih => exact congrArg (bind k value) ih
  | when cond yes rest _ ih => exact congrArg (when cond yes) ih
  | either cond yes base no rest _ _ ih => exact congrArg (either cond yes base no) ih

theorem last_andThen (g g' : Flow) (hg : g.returns = false) (b n : Nat) :
    g'.last (g.last b n) (n + g.size) = (g.andThen g').last b n := by
  induction g generalizing b n with
  | fall => rfl
  | ret => cases hg
  | emit i rest ih => exact ih hg b n
  | bind k value rest ih => exact ih hg b n
  | when cond yes rest _ ihr =>
    simp only [andThen, last, size, ← ihr hg]
    congr 1
    omega
  | either cond yes base no rest _ _ ihr =>
    simp only [andThen, last, size, ← ihr hg]
    congr 1
    omega

/-- One flow and then another. -/
theorem spread_andThen (g g' : Flow) (hg : g.returns = false) (hb : b < bs.length) :
    g'.spread exit (g.spread none bs b) (g.last b bs.length) =
      (g.andThen g').spread exit bs b := by
  induction g generalizing bs b with
  | fall =>
    have hinto : g'.into bs.length exit ∘ fall.into bs.length none = g'.into bs.length exit := by
      funext block
      simp [into, instrs]
    simp [spread, blocks, last, andThen, List.modify_modify_eq, hinto]
  | ret value => cases hg
  | emit i rest ih =>
    rw [andThen, spread_emit, spread_emit, ← ih hg (by simpa using hb), List.length_modify, last]
  | bind k value rest ih =>
    rw [andThen, spread_bind, spread_bind, ← ih hg (by simpa using hb), List.length_modify, last]
  | when cond yes rest _ ihr =>
    have hn : bs.length + 2 + yes.size = bs.length + 1 + yes.size + 1 := by omega
    rw [andThen, spread_when, spread_when, ← ihr hg (by simp), last]
    simp [hn]
  | either cond yes base no rest _ _ ihr =>
    have hn : bs.length + 3 + yes.size + no.size = bs.length + 1 + yes.size + 1 + 1 + no.size := by
      omega
    rw [andThen, spread_either, spread_either, ← ihr hg (by simp; omega), last]
    simp [hn]

/-- To end the last block of a flow, if it is open, is to say what follows the flow. -/
theorem spread_goesOn (g : Flow) (hb : b < bs.length) (t : Terminator) :
    (g.spread none bs b).modify (g.last b bs.length) (·.goesOn t) = g.spread (some t) bs b := by
  induction g generalizing bs b with
  | fall =>
    have hinto : (·.goesOn t) ∘ fall.into bs.length none = fall.into bs.length (some t) := by
      funext block
      simp [into, Block.goesOn, Block.isClosed, Block.ended, terminator]
    simp [spread, blocks, last, List.modify_modify_eq, hinto]
  | ret value =>
    have hinto : (·.goesOn t) ∘ (ret value).into bs.length none =
        (ret value).into bs.length (some t) := by
      funext block
      simp [into, Block.goesOn, Block.isClosed, terminator]
    simp [spread, blocks, last, List.modify_modify_eq, hinto]
  | emit i rest ih =>
    rw [spread_emit, spread_emit, ← ih (by simpa using hb), List.length_modify, last]
  | bind k value rest ih =>
    rw [spread_bind, spread_bind, ← ih (by simpa using hb), List.length_modify, last]
  | when cond yes rest _ ihr =>
    have hn : bs.length + 2 + yes.size = bs.length + 1 + yes.size + 1 := by omega
    rw [spread_when, spread_when, ← ihr (by simp), last]
    simp [hn]
  | either cond yes base no rest _ _ ihr =>
    have hn : bs.length + 3 + yes.size + no.size = bs.length + 1 + yes.size + 1 + 1 + no.size := by
      omega
    rw [spread_either, spread_either, ← ihr (by simp; omega), last]
    simp [hn]

/-- A flow in a new block, when the block `o` before it is changed and the flow told to go on. -/
theorem modify_goesOn {o : Nat} (g : Flow) (ho : o < bs.length) (f : Block → Block) (new : Block)
    (r : List Block) (t : Terminator) :
    ((g.spread none (bs ++ [new]) bs.length ++ r).modify o f).modify
        (g.last bs.length (bs.length + 1)) (·.goesOn t) =
      g.spread (some t) (bs.modify o f ++ [new]) bs.length ++ r := by
  have hlast := g.last_lt (Nat.lt_succ_self bs.length)
  have hb : bs.length < (bs.modify o f ++ [new]).length := by simp
  have hgo := spread_goesOn g hb t
  simp only [List.length_append, List.length_modify, List.length_singleton] at hgo
  rw [modify_append (by simp; omega), modify_spread g (by simp; omega) (by omega),
    modify_append ho, modify_append (by simpa using hlast), hgo]

theorem label_spread {i : Nat} {block block' : Block} (g : Flow)
    (h : (g.spread exit bs b)[i]? = some block) (h' : bs[i]? = some block') :
    block.label = block'.label := by
  have hi := (List.getElem?_eq_some_iff.mp h').1
  rw [spread, List.getElem?_append_left (by simpa using hi), List.getElem?_modify, h'] at h
  simp only [Option.map_eq_map, Option.map_some, Option.some.injEq] at h
  rw [← h]
  split <;> rfl

/-- The last block of a flow has ended if the flow returns, and is open otherwise. -/
theorem exists_last (g : Flow) (hb : b < bs.length) :
    ∃ block, (g.spread none bs b)[g.last b bs.length]? = some block ∧
      block.isClosed = g.returns := by
  induction g generalizing bs b with
  | fall => exact ⟨fall.into bs.length none bs[b], by simp [spread, blocks, last, hb], rfl⟩
  | ret value =>
    exact ⟨(ret value).into bs.length none bs[b], by simp [spread, blocks, last, hb], rfl⟩
  | emit i rest ih =>
    rw [spread_emit, last, ← List.length_modify (·.append [i]) bs b]
    exact ih (by simpa using hb)
  | bind k value rest ih =>
    rw [spread_bind, last, ← List.length_modify (·.append (reserve k value)) bs b]
    exact ih (by simpa using hb)
  | when cond yes rest _ ihr =>
    rw [spread_when, last]
    generalize hc : yes.spread _ _ _ ++ [_] = cs
    have hl : cs.length = bs.length + 2 + yes.size := by
      rw [← hc]
      simp
      omega
    rw [← hl]
    exact ihr (by omega)
  | either cond yes base no rest _ _ ihr =>
    rw [spread_either, last]
    generalize hc : no.spread _ _ _ = cs
    have hl : cs.length = bs.length + 3 + yes.size + no.size := by
      rw [← hc]
      simp
      omega
    rw [← hl]
    exact ihr (by omega)

end Flow
end ProcLang.IR

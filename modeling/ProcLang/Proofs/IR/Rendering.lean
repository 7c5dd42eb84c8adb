import ProcLang.Proofs.IR.Legible

/-!
# The words of a module

The text of a module is a list of words with marks behind them. From the words of legible code the
code itself can be told, part by part: each part tells where it ends, so that what follows it does
not matter.

## Main definitions

* `Operation.words`, `Block.words`, `Function.words`, `Module.words` — the words of code.

## Main statements

* `Operation.append_inj`, `Block.append_inj`, `Function.append_inj` — what the words of code say.
* `Module.eq_of_text_eq` — legible modules with the same name have different texts.
-/
namespace ProcLang.IR

/-! ## Words -/

/-- The first word of a comparison of values of type `ty`. -/
def Relation.keyword (ty : Ty) : String := if ty.isFloat then "fcmp" else "icmp"

/-- The second word of a comparison of values of type `ty`. -/
def Relation.predicate (op : Relation) (ty : Ty) : String :=
  match op with
  | .eq => if ty.isFloat then "oeq" else "eq"
  | .ne => if ty.isFloat then "une" else "ne"
  | .lt => if ty.isFloat then "olt" else if ty.isBool then "ult" else "slt"
  | .gt => if ty.isFloat then "ogt" else if ty.isBool then "ugt" else "sgt"

theorem Relation.mnemonic_eq (op : Relation) (ty : Ty) :
    op.mnemonic ty = keyword ty ++ " " ++ op.predicate ty := by
  cases hf : ty.isFloat <;> cases hb : ty.isBool <;> cases op <;>
    simp only [mnemonic, keyword, predicate, hf, hb] <;> rfl

/-- The type and the text of a value. -/
def Value.entry (v : Value) : String × String := (v.ty.text, v.text)

namespace Operation

/-- The first word of an operation. -/
def keyword : Operation → String
  | .alloca _ => "alloca"
  | .load _ => "load"
  | .store _ _ => "store"
  | .arith op lhs _ => op.mnemonic lhs.ty
  | .compare _ lhs _ => Relation.keyword lhs.ty
  | .call _ _ _ => "call"
  | .cast op _ _ => op.mnemonic

/-- The words of an operation behind the first one, up to the end of the line. -/
def rest : Operation → Words
  | .alloca ty => [(ty.text, '\n')]
  | .load ptr =>
    [((ptr.ty.target?.getD .void).text, ','), ("", ' '), (ptr.ty.text, ' '), (ptr.text, '\n')]
  | .store value ptr =>
    [(value.ty.text, ' '), (value.text, ','), ("", ' '), (ptr.ty.text, ' '), (ptr.text, '\n')]
  | .arith _ lhs rhs => [(lhs.ty.text, ' '), (lhs.text, ','), ("", ' '), (rhs.text, '\n')]
  | .compare op lhs rhs =>
    [(op.predicate lhs.ty, ' '), (lhs.ty.text, ' '), (lhs.text, ','), ("", ' '), (rhs.text, '\n')]
  | .call function ret args =>
    (ret.text, ' ') :: ("@" ++ function, '(') ::
      (Words.listed (args.map Value.entry) ++ [("", '\n')])
  | .cast _ value ty =>
    [(value.ty.text, ' '), (value.text, ' '), ("to", ' '), (ty.text, '\n')]

/-- The words of an operation. -/
def words (op : Operation) : Words := (op.keyword, ' ') :: op.rest

theorem chars_words (op : Operation) : op.words.chars = op.text.toList ++ ['\n'] := by
  cases op with
  | compare op lhs rhs =>
    simp [words, keyword, rest, text, Value.typed, Relation.mnemonic_eq]
  | call function ret args =>
    simp only [words, keyword, rest, text, typedList, Words.chars_cons, Words.chars_append,
      Words.chars_listed, List.map_map]
    simp
    rfl
  | _ => simp [words, keyword, rest, text, Value.typed]

end Operation

/-- The words of an instruction, with the blanks before it. -/
def Instr.words (i : Instr) : Words :=
  ("", ' ') :: ("", ' ') :: (i.result.toList.flatMap (fun v => [(v.text, ' '), ("=", ' ')]) ++
    i.op.words)

theorem Instr.chars_words (i : Instr) :
    i.words.chars = ("  " ++ i.text ++ "\n").toList := by
  obtain ⟨result, op⟩ := i
  cases result <;> simp [Instr.words, Instr.text, Operation.chars_words]

namespace Terminator

/-- The words of a terminator, with the blanks before it. -/
def words (t : Terminator) : Words :=
  ("", ' ') :: ("", ' ') :: match t with
  | .ret none => [("ret", ' '), ("void", '\n')]
  | .ret (some v) => [("ret", ' '), (v.ty.text, ' '), (v.text, '\n')]
  | .br target => [("br", ' '), ("label", ' '), ("%" ++ target, '\n')]
  | .brIf cond yes no =>
    [("br", ' '), (cond.ty.text, ' '), (cond.text, ','), ("", ' '), ("label", ' '),
      ("%" ++ yes, ','), ("", ' '), ("label", ' '), ("%" ++ no, '\n')]
  | .unreachable => [("unreachable", '\n')]

theorem chars_words (t : Terminator) : t.words.chars = ("  " ++ t.text ++ "\n").toList := by
  cases t with
  | ret value => cases value <;> simp [words, text, Value.typed]
  | _ => simp [words, text, Value.typed]

end Terminator

/-- The words of a block. -/
def Block.words (b : Block) : Words :=
  (b.label ++ ":", '\n') ::
    (b.instrs.flatMap Instr.words ++ b.terminator.toList.flatMap Terminator.words)

theorem Block.chars_words (b : Block) : b.words.chars = b.text.toList := by
  simp [Block.words, Block.text, Block.lines, Words.chars_flatMap, Instr.chars_words,
    Terminator.chars_words, String.toList_join, List.flatMap_map]

/-- The words of a function. -/
def Function.words (f : Function) : Words :=
  ("define", ' ') :: (f.ret.text, ' ') :: ("@" ++ f.name, '(') ::
    (Words.listed (f.params.map fun p => (p.2.text, "%" ++ p.1)) ++ ("", ' ') :: ("\x7b", '\n') ::
      (Words.apart (f.blocks.map Block.words) ++ [("\x7d", '\n')]))

theorem chars_apart_map {α : Type} {words : α → Words} {text : α → String}
    (h : ∀ a, (words a).chars = (text a).toList) (l : List α) :
    (Words.apart (l.map words)).chars = ("\n".intercalate (l.map text)).toList := by
  have hmap : (l.map words).map Words.chars = (l.map text).map String.toList := by
    simp only [List.map_map, Function.comp_def, h]
  rw [Words.chars_apart, String.toList_intercalate, hmap]
  simp

theorem Function.chars_words (f : Function) : f.words.chars = f.text.toList := by
  have hparams : (f.params.map paramText) =
      (f.params.map fun p => (p.2.text, "%" ++ p.1)).map fun e => e.1 ++ " " ++ e.2 := by
    rw [List.map_map]
    refine List.map_congr_left fun p _ => String.toList_inj.mp ?_
    simp [paramText]
  unfold Function.words Function.text
  rw [hparams]
  simp only [Words.chars_cons, Words.chars_append, chars_apart_map Block.chars_words,
    Words.chars_listed]
  simp

/-- The words of the functions of a module. -/
def Module.words (m : Module) : Words := Words.apart (m.functions.map Function.words)

/-- The lines of the text of a module before its functions. They show its name only. -/
def Module.preamble (name : String) : String :=
  "; ModuleID = '" ++ name ++ "'\nsource_filename = \"" ++ name ++ "\"\n\n"

theorem Module.chars_words (m : Module) :
    m.text.toList = (preamble m.name).toList ++ m.words.chars := by
  have htext : m.text = preamble m.name ++ "\n".intercalate (m.functions.map Function.text) := rfl
  rw [htext]
  unfold Module.words
  rw [chars_apart_map Function.chars_words]
  exact String.toList_append

/-! ## Clear words -/

theorem Value.clear_entries {vs : List Value} (h : ∀ v ∈ vs, v.Legible ∧ v.ty.isScalar = true) :
    (Words.listed (vs.map Value.entry)).Clear := by
  refine Words.clear_listed fun e he => ?_
  obtain ⟨v, hv, rfl⟩ := List.mem_map.mp he
  exact ⟨v.ty.isWord_text, Value.isWord_text (h v hv).1⟩

namespace Operation

/-- The first words that operations have. -/
def keywords : List String :=
  ["alloca", "load", "store", "add", "fadd", "sub", "fsub", "mul", "fmul", "fdiv", "sdiv", "fcmp",
    "icmp", "call", "sext", "zext", "trunc", "fpext", "fptrunc", "sitofp", "uitofp", "fptosi"]

theorem keyword_mem (op : Operation) : op.keyword ∈ keywords := by
  cases op with
  | arith op l r =>
    cases hf : l.ty.isFloat <;> cases op <;> simp [keyword, Arith.mnemonic, hf, keywords]
  | compare op l r => cases hf : l.ty.isFloat <;> simp [keyword, Relation.keyword, hf, keywords]
  | cast op v ty => cases op <;> simp [keyword, Conversion.mnemonic, keywords]
  | _ => simp [keyword, keywords]

theorem isWord_of_mem_keywords : ∀ w ∈ keywords, IsWord w := by decide

theorem isWord_predicate (op : Relation) (ty : Ty) : IsWord (op.predicate ty) := by
  cases hf : ty.isFloat <;> cases hb : ty.isBool <;> cases op <;>
    simp [Relation.predicate, hf, hb, IsWord, isMark]

theorem Legible.clear {op : Operation} {r : Option Ty} (h : op.Legible r) : op.words.Clear := by
  have hkey := isWord_of_mem_keywords _ op.keyword_mem
  refine Words.clear_cons.mpr ⟨⟨hkey, rfl⟩, ?_⟩
  have hempty : IsWord "" := by decide
  have hat : IsWord "@" := by decide
  cases h with
  | alloca hs => simp [rest, Ty.isWord_text, isMark]
  | load k hs => simp [rest, Ty.isWord_text, Value.isWord_text (.temp _ _), isMark, hempty]
  | store k hv hs =>
    simp [rest, Ty.isWord_text, Value.isWord_text hv, Value.isWord_text (.temp _ _), isMark, hempty]
  | arith hl hr hty hs =>
    simp [rest, Ty.isWord_text, Value.isWord_text hl, Value.isWord_text hr, isMark, hempty]
  | compare hl hr hty hs =>
    simp [rest, isWord_predicate, Ty.isWord_text, Value.isWord_text hl, Value.isWord_text hr,
      isMark, hempty]
  | call hname hargs hs =>
    have hlisted := Value.clear_entries hargs
    simp [rest, Ty.isWord_text, hat, hname.1, hlisted, isMark, hempty]
  | callNothing hname hargs =>
    have hlisted := Value.clear_entries hargs
    simp [rest, Ty.isWord_text, hat, hname.1, hlisted, isMark, hempty]
  | cast hv hs hs' =>
    have hto : IsWord "to" := by decide
    simp [rest, Ty.isWord_text, Value.isWord_text hv, isMark, hto]

end Operation

theorem Instr.Legible.clear {i : Instr} (h : i.Legible) : i.words.Clear := by
  have hempty : IsWord "" := by decide
  have heq : IsWord "=" := by decide
  cases h with
  | define n h => simp [Instr.words, Value.isWord_text (.temp _ _), h.clear, isMark, hempty, heq]
  | perform h => simp [Instr.words, h.clear, isMark, hempty]

theorem Terminator.Legible.clear {t : Terminator} (h : t.Legible) : t.words.Clear := by
  have hwords : ∀ w ∈ ["", "ret", "void", "br", "label", "%", "unreachable"], IsWord w := by decide
  simp only [List.forall_mem_cons] at hwords
  cases h with
  | retNothing => simp [Terminator.words, isMark, hwords]
  | ret hv hs => simp [Terminator.words, Ty.isWord_text, Value.isWord_text hv, isMark, hwords]
  | br ht => simp [Terminator.words, ht, isMark, hwords]
  | brIf hc hty hyes hno =>
    simp [Terminator.words, Ty.isWord_text, Value.isWord_text hc, hyes, hno, isMark, hwords]
  | unreachable => simp [Terminator.words, isMark, hwords]

theorem Block.Legible.clear {b : Block} (h : b.Legible) : b.words.Clear := by
  have hcolon : IsWord ":" := by decide
  obtain ⟨t, ht, htl⟩ := h.terminator
  simp only [Block.words, Words.clear_cons, Words.clear_append, isWord_append, ht,
    Option.toList_some, List.flatMap_singleton]
  refine ⟨⟨⟨h.label, hcolon⟩, rfl⟩, fun w hw => ?_, htl.clear⟩
  obtain ⟨i, hi, hw⟩ := List.mem_flatMap.mp hw
  exact (h.instrs i hi).clear w hw

theorem Function.Legible.clear {f : Function} (h : f.Legible) : f.words.Clear := by
  have hwords : ∀ w ∈ ["define", "", "@", "\x7b", "\x7d"], IsWord w := by decide
  have hpercent : IsWord "%" := by decide
  simp only [List.forall_mem_cons] at hwords
  have hblocks : (Words.apart (f.blocks.map Block.words)).Clear := by
    refine Words.clear_apart fun p hp => ?_
    obtain ⟨b, hb, rfl⟩ := List.mem_map.mp hp
    exact (h.blocks b hb).clear
  have hparams : (Words.listed (f.params.map fun p => (p.2.text, "%" ++ p.1))).Clear := by
    refine Words.clear_listed fun e he => ?_
    obtain ⟨p, hp, rfl⟩ := List.mem_map.mp he
    exact ⟨p.2.isWord_text, isWord_append.mpr ⟨hpercent, (h.params p hp).1.1⟩⟩
  simp [Function.words, Ty.isWord_text, h.name.1, hblocks, hparams, isMark, hwords]

theorem Module.Legible.clear {m : Module} (h : m.Legible) : m.words.Clear := by
  refine Words.clear_apart fun p hp => ?_
  obtain ⟨f, hf, rfl⟩ := List.mem_map.mp hp
  exact (h f hf).clear

/-! ## What words say -/

theorem Value.eq_of_entry_eq {v w : Value} (hv : v.Legible ∧ v.ty.isScalar = true)
    (hw : w.Legible ∧ w.ty.isScalar = true) (h : v.entry = w.entry) : v = w := by
  obtain ⟨hty, htext⟩ := Prod.mk.inj h
  have hty := Ty.eq_of_text_eq (Ty.isPtr_of_isScalar hv.2) (Ty.isPtr_of_isScalar hw.2) hty
  exact eq_of_text_eq hv.1 hw.1 hty htext

theorem Arith.eq_of_mnemonic_eq {op op' : Arith} {ty : Ty} (h : op.mnemonic ty = op'.mnemonic ty) :
    op = op' := by
  cases hf : ty.isFloat <;> cases op <;> cases op' <;> simp [Arith.mnemonic, hf] at h ⊢

theorem Relation.eq_of_predicate_eq {op op' : Relation} {ty : Ty}
    (h : op.predicate ty = op'.predicate ty) : op = op' := by
  cases hf : ty.isFloat <;> cases hb : ty.isBool <;> cases op <;> cases op' <;>
    simp [Relation.predicate, hf, hb] at h ⊢

theorem Conversion.eq_of_mnemonic_eq {op op' : Conversion} (h : op.mnemonic = op'.mnemonic) :
    op = op' := by
  cases op <;> cases op' <;> simp [Conversion.mnemonic] at h ⊢

namespace Operation

/-- The sort of operation that a first word stands for. -/
def sortOf (word : String) : Nat :=
  if word = "alloca" then 0
  else if word = "load" then 1
  else if word = "store" then 2
  else if word ∈ ["add", "fadd", "sub", "fsub", "mul", "fmul", "fdiv", "sdiv"] then 3
  else if word ∈ ["fcmp", "icmp"] then 4
  else if word = "call" then 5
  else 6

theorem sortOf_keyword (op : Operation) : sortOf op.keyword = op.ctorIdx := by
  cases op with
  | arith op l r =>
    cases hf : l.ty.isFloat <;> cases op <;> simp [keyword, Arith.mnemonic, hf] <;> rfl
  | compare op l r => cases hf : l.ty.isFloat <;> simp [keyword, Relation.keyword, hf] <;> rfl
  | cast op v ty => cases op <;> rfl
  | _ => rfl

theorem call_inj {name name' : String} {ret ret' : Ty} {args args' : List Value} {s s' : Words}
    (hret : ret.isPtr = false) (hret' : ret'.isPtr = false)
    (h : ∀ v ∈ args, v.Legible ∧ v.ty.isScalar = true)
    (h' : ∀ v ∈ args', v.Legible ∧ v.ty.isScalar = true)
    (heq : (call name ret args).rest ++ s = (call name' ret' args').rest ++ s') :
    name = name' ∧ ret = ret' ∧ args = args' ∧ s = s' := by
  simp only [rest, List.cons_append, List.append_assoc, List.cons.injEq, Prod.mk.injEq, and_true]
    at heq
  obtain ⟨hty, hname, hargs⟩ := heq
  obtain ⟨hargs, hs⟩ := Words.listed_append_inj hargs
  refine ⟨by simpa using hname, Ty.eq_of_text_eq hret hret' hty, ?_, by simpa using hs⟩
  exact map_inj_of_forall Value.eq_of_entry_eq h h' hargs

/-- The words of a legible operation tell what it is, what type its result has and where its words
end. -/
theorem append_inj {op op' : Operation} {r r' : Option Ty} (h : op.Legible r) (h' : op'.Legible r')
    {s s' : Words} (heq : op.words ++ s = op'.words ++ s') : op = op' ∧ r = r' ∧ s = s' := by
  obtain ⟨hkey, hrest⟩ : op.keyword = op'.keyword ∧ op.rest ++ s = op'.rest ++ s' := by
    simpa [words] using heq
  have hsort : op.ctorIdx = op'.ctorIdx := by
    rw [← sortOf_keyword, ← sortOf_keyword, hkey]
  cases h with
  | alloca hs =>
    cases h' with
    | alloca hs' =>
      obtain ⟨hty, rfl⟩ : _ ∧ s = s' := by simpa [rest] using hrest
      rw [Ty.eq_of_text_eq (Ty.isPtr_of_isScalar hs) (Ty.isPtr_of_isScalar hs') hty]
      exact ⟨rfl, rfl, rfl⟩
    | _ => cases hsort
  | load k hs =>
    cases h' with
    | load k' hs' =>
      simp only [rest, Ty.target?, Option.getD_some, List.cons_append, List.nil_append,
        List.cons.injEq, Prod.mk.injEq, and_true, true_and] at hrest
      obtain ⟨hty, -, hk, rfl⟩ := hrest
      rw [Ty.eq_of_text_eq (Ty.isPtr_of_isScalar hs) (Ty.isPtr_of_isScalar hs') hty,
        Value.temp_inj hk]
      exact ⟨rfl, rfl, rfl⟩
    | _ => cases hsort
  | store k hv hs =>
    cases h' with
    | store k' hv' hs' =>
      simp only [rest, List.cons_append, List.nil_append, List.cons.injEq, Prod.mk.injEq, and_true,
        true_and] at hrest
      obtain ⟨hty, htext, -, hk, rfl⟩ := hrest
      rw [Value.eq_of_entry_eq ⟨hv, hs⟩ ⟨hv', hs'⟩ (Prod.ext hty htext), Value.temp_inj hk]
      exact ⟨rfl, rfl, rfl⟩
    | _ => cases hsort
  | arith hl hr hty hs =>
    cases h' with
    | arith hl' hr' hty' hs' =>
      simp only [rest, List.cons_append, List.nil_append, List.cons.injEq, Prod.mk.injEq, and_true,
        true_and] at hrest
      obtain ⟨hlty, hltext, hrtext, rfl⟩ := hrest
      obtain rfl := Value.eq_of_entry_eq ⟨hl, hs⟩ ⟨hl', hs'⟩ (Prod.ext hlty hltext)
      rw [Value.eq_of_text_eq hr hr' (hty.trans hty'.symm) hrtext, Arith.eq_of_mnemonic_eq hkey]
      exact ⟨rfl, rfl, rfl⟩
    | _ => cases hsort
  | compare hl hr hty hs =>
    cases h' with
    | compare hl' hr' hty' hs' =>
      simp only [rest, List.cons_append, List.nil_append, List.cons.injEq, Prod.mk.injEq, and_true,
        true_and] at hrest
      obtain ⟨hop, hlty, hltext, hrtext, rfl⟩ := hrest
      obtain rfl := Value.eq_of_entry_eq ⟨hl, hs⟩ ⟨hl', hs'⟩ (Prod.ext hlty hltext)
      rw [Value.eq_of_text_eq hr hr' (hty.trans hty'.symm) hrtext, Relation.eq_of_predicate_eq hop]
      exact ⟨rfl, rfl, rfl⟩
    | _ => cases hsort
  | call hname hargs hs =>
    have hret := Ty.isPtr_of_isScalar hs
    cases h' with
    | call hname' hargs' hs' =>
      obtain ⟨rfl, rfl, rfl, rfl⟩ := call_inj hret (Ty.isPtr_of_isScalar hs') hargs hargs' hrest
      exact ⟨rfl, rfl, rfl⟩
    | callNothing hname' hargs' =>
      obtain ⟨-, rfl, -, -⟩ := call_inj hret rfl hargs hargs' hrest
      cases hs
    | _ => cases hsort
  | callNothing hname hargs =>
    cases h' with
    | call hname' hargs' hs' =>
      obtain ⟨-, rfl, -, -⟩ := call_inj rfl (Ty.isPtr_of_isScalar hs') hargs hargs' hrest
      cases hs'
    | callNothing hname' hargs' =>
      obtain ⟨rfl, -, rfl, rfl⟩ := call_inj rfl rfl hargs hargs' hrest
      exact ⟨rfl, rfl, rfl⟩
    | _ => cases hsort
  | cast hv hs hty =>
    cases h' with
    | cast hv' hs' hty' =>
      simp only [rest, List.cons_append, List.nil_append, List.cons.injEq, Prod.mk.injEq, and_true,
        true_and] at hrest
      obtain ⟨hvty, hvtext, hto, rfl⟩ := hrest
      obtain rfl := Value.eq_of_entry_eq ⟨hv, hs⟩ ⟨hv', hs'⟩ (Prod.ext hvty hvtext)
      rw [Ty.eq_of_text_eq (Ty.isPtr_of_isScalar hty) (Ty.isPtr_of_isScalar hty') hto,
        Conversion.eq_of_mnemonic_eq hkey]
      exact ⟨rfl, rfl, rfl⟩
    | _ => cases hsort

end Operation

/-- No word of another kind can be taken for a temporary. -/
theorem Value.text_temp_ne {n : Nat} {ty : Ty} {w : String} (h : w.toList.head? ≠ some '%') :
    (Value.mk (.temp n) ty).text ≠ w := by
  rintro rfl
  rw [toList_text_temp] at h
  exact h rfl

theorem Operation.head?_keyword (op : Operation) : op.keyword.toList.head? ≠ some '%' := by
  have hhead : ∀ w ∈ keywords, w.toList.head? ≠ some '%' := by decide
  exact hhead _ op.keyword_mem

theorem Instr.append_inj {i j : Instr} (hi : i.Legible) (hj : j.Legible) {s s' : Words}
    (h : i.words ++ s = j.words ++ s') : i = j ∧ s = s' := by
  cases hi with
  | define n hi =>
    cases hj with
    | define m hj =>
      obtain ⟨hn, h⟩ : _ ∧ _ ++ s = _ ++ s' := by simpa [Instr.words] using h
      obtain ⟨rfl, hty, rfl⟩ := Operation.append_inj hi hj h
      cases hty
      rw [Value.temp_inj hn]
      exact ⟨rfl, rfl⟩
    | @perform op hj =>
      obtain ⟨hn, -⟩ : _ ∧ _ = op.rest ++ s' := by simpa [Instr.words, Operation.words] using h
      exact absurd hn (Value.text_temp_ne op.head?_keyword)
  | @perform op hi =>
    cases hj with
    | define m hj =>
      obtain ⟨hm, -⟩ : _ ∧ op.rest ++ s = _ := by simpa [Instr.words, Operation.words] using h
      exact absurd hm.symm (Value.text_temp_ne op.head?_keyword)
    | perform hj =>
      obtain ⟨rfl, -, rfl⟩ := Operation.append_inj hi hj (by simpa [Instr.words] using h)
      exact ⟨rfl, rfl⟩

namespace Terminator

/-- The first words that terminators have. -/
def keywords : List String := ["ret", "br", "unreachable"]

theorem words_eq (t : Terminator) : ∃ w mark rest, w ∈ keywords ∧
    t.words = ("", ' ') :: ("", ' ') :: (w, mark) :: rest := by
  cases t with
  | ret value => cases value <;> exact ⟨"ret", _, _, by decide, rfl⟩
  | br target => exact ⟨"br", _, _, by decide, rfl⟩
  | brIf cond yes no => exact ⟨"br", _, _, by decide, rfl⟩
  | unreachable => exact ⟨"unreachable", _, _, by decide, rfl⟩

theorem append_inj {t t' : Terminator} (h : t.Legible) (h' : t'.Legible) {s s' : Words}
    (heq : t.words ++ s = t'.words ++ s') : t = t' ∧ s = s' := by
  cases h with
  | retNothing =>
    cases h' with
    | retNothing => simpa [words] using heq
    | _ => simp [words] at heq
  | ret hv hs =>
    cases h' with
    | ret hv' hs' =>
      simp only [words, List.cons_append, List.nil_append, List.cons.injEq, Prod.mk.injEq, and_true,
        true_and] at heq
      obtain ⟨hty, htext, rfl⟩ := heq
      rw [Value.eq_of_entry_eq ⟨hv, hs⟩ ⟨hv', hs'⟩ (Prod.ext hty htext)]
      exact ⟨rfl, rfl⟩
    | _ => simp [words] at heq
  | br ht =>
    cases h' with
    | br ht' => simpa [words] using heq
    | _ => simp [words] at heq
  | brIf hc hty hyes hno =>
    cases h' with
    | brIf hc' hty' hyes' hno' =>
      obtain ⟨-, htext, hyes, hno, rfl⟩ : _ ∧ _ ∧ _ ∧ _ ∧ s = s' := by simpa [words] using heq
      rw [Value.eq_of_text_eq hc hc' (hty.trans hty'.symm) htext, hyes, hno]
      exact ⟨rfl, rfl⟩
    | _ => simp [words] at heq
  | unreachable =>
    cases h' with
    | unreachable => simpa [words] using heq
    | _ => simp [words] at heq

end Terminator

/-- The first word of a line tells an instruction from a terminator. -/
theorem Instr.append_ne {i : Instr} (hi : i.Legible) (t : Terminator) (s s' : Words) :
    i.words ++ s ≠ t.words ++ s' := by
  intro h
  obtain ⟨w, mark, rest, hw, ht⟩ := t.words_eq
  have hheads : ∀ w ∈ Terminator.keywords, w.toList.head? ≠ some '%' ∧ w ∉ Operation.keywords := by
    decide
  obtain ⟨hhead, hkey⟩ := hheads w hw
  rw [ht] at h
  cases hi with
  | define n hi =>
    simp only [Instr.words, Option.toList_some, List.flatMap_singleton, List.cons_append,
      List.cons.injEq, Prod.mk.injEq, true_and] at h
    exact Value.text_temp_ne hhead h.1.1
  | @perform op hi =>
    simp only [Instr.words, Operation.words, Option.toList_none, List.flatMap_nil, List.nil_append,
      List.cons_append, List.cons.injEq, Prod.mk.injEq, true_and] at h
    exact hkey (h.1.1 ▸ op.keyword_mem)

/-- The lines of a block. -/
theorem Block.lines_inj {is js : List Instr} {t t' : Terminator} (hi : ∀ i ∈ is, i.Legible)
    (hj : ∀ j ∈ js, j.Legible) (ht : t.Legible) (ht' : t'.Legible) {s s' : Words}
    (h : is.flatMap Instr.words ++ (t.words ++ s) = js.flatMap Instr.words ++ (t'.words ++ s')) :
    is = js ∧ t = t' ∧ s = s' := by
  induction is generalizing js with
  | nil =>
    cases js with
    | nil => exact ⟨rfl, Terminator.append_inj ht ht' h⟩
    | cons j js =>
      rw [List.flatMap_cons, List.append_assoc] at h
      exact absurd h.symm (Instr.append_ne (hj j List.mem_cons_self) t _ _)
  | cons i is ih =>
    obtain ⟨hi₀, his⟩ := List.forall_mem_cons.mp hi
    rw [List.flatMap_cons, List.append_assoc] at h
    cases js with
    | nil => exact absurd h (Instr.append_ne hi₀ t' _ _)
    | cons j js =>
      obtain ⟨hj₀, hjs⟩ := List.forall_mem_cons.mp hj
      rw [List.flatMap_cons, List.append_assoc] at h
      obtain ⟨rfl, hlines⟩ := Instr.append_inj hi₀ hj₀ h
      obtain ⟨rfl, hrest⟩ := ih his hjs hlines
      exact ⟨rfl, hrest⟩

theorem Block.append_inj {b b' : Block} {s s' : Words} (h : b.Legible) (h' : b'.Legible)
    (heq : b.words ++ s = b'.words ++ s') : b = b' ∧ s = s' := by
  obtain ⟨t, ht, htl⟩ := h.terminator
  obtain ⟨t', ht', htl'⟩ := h'.terminator
  simp only [Block.words, ht, ht', Option.toList_some, List.flatMap_singleton, List.cons_append,
    List.append_assoc, List.cons.injEq, Prod.mk.injEq, and_true] at heq
  obtain ⟨hlabel, hlines⟩ := heq
  obtain ⟨hinstrs, rfl, rfl⟩ := Block.lines_inj h.instrs h'.instrs htl htl' hlines
  refine ⟨?_, rfl⟩
  cases b
  cases b'
  simp_all

/-- A block does not start with the line that ends a function. -/
theorem Block.append_ne (b : Block) (s s' : Words) : b.words ++ s ≠ ("\x7d", '\n') :: s' := by
  intro h
  have hlabel : b.label ++ ":" = "\x7d" := (Prod.mk.inj (List.cons.inj h).1).1
  have hlast := congrArg (fun w => w.toList.getLast?) hlabel
  simp at hlast

theorem Function.append_inj {f f' : Function} {s s' : Words} (h : f.Legible) (h' : f'.Legible)
    (heq : f.words ++ s = f'.words ++ s') : f = f' ∧ s = s' := by
  simp only [Function.words, List.cons_append, List.append_assoc, List.cons.injEq, Prod.mk.injEq,
    true_and, and_true] at heq
  obtain ⟨hret, hname, heq⟩ := heq
  obtain ⟨hparams, heq⟩ := Words.listed_append_inj heq
  simp only [List.nil_append, List.cons.injEq, true_and] at heq
  obtain ⟨hblocks, rfl⟩ := intercalate_append_inj (by decide) Block.append_inj
    (fun {b s s'} _ => b.append_ne s s') h.blocks h'.blocks heq
  refine ⟨?_, rfl⟩
  have hret := Ty.eq_of_text_eq h.ret h'.ret hret
  have hname : f.name = f'.name := by simpa using hname
  have hparams : f.params = f'.params := by
    refine map_inj_of_forall (fun {p q} hp hq hpq => ?_) h.params h'.params hparams
    obtain ⟨hty, hname⟩ := Prod.mk.inj hpq
    have hty := Ty.eq_of_text_eq (Ty.isPtr_of_isScalar hp.2) (Ty.isPtr_of_isScalar hq.2) hty
    exact Prod.ext (by simpa using hname) hty
  have htemps : f.temps = f'.temps := by
    rw [h.temps, h'.temps, Function.defined, Function.defined, hblocks]
  cases f
  cases f'
  simp_all

theorem Function.append_ne (f : Function) (s s' : Words) : f.words ++ s ≠ ("\x7d", '\n') :: s' := by
  intro h
  simp [Function.words] at h

/-- Legible modules of one name have different texts. -/
theorem Module.eq_of_text_eq {m m' : Module} (h : m.Legible) (h' : m'.Legible)
    (hname : m.name = m'.name) (htext : m.text = m'.text) : m = m' := by
  have hchars : m.words.chars = m'.words.chars := by
    have htext := congrArg String.toList htext
    rw [m.chars_words, m'.chars_words, hname] at htext
    exact List.append_cancel_left htext
  have hwords := Words.eq_of_chars_eq h.clear h'.clear hchars
  -- The last function is followed by nothing; a line that starts no function takes that place.
  have hstop := congrArg (· ++ [("\x7d", '\n')]) hwords
  obtain ⟨hfunctions, -⟩ := intercalate_append_inj (by decide) Function.append_inj
    (fun {f s s'} _ => f.append_ne s s') h h' hstop
  cases m
  cases m'
  simp_all

end ProcLang.IR

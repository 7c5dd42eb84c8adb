import ProcLang.Proofs.Faithfulness
import ProcLang.Proofs.Number.Text
import ProcLang.Proofs.Source.Linked

/-!
# The prefix form is unambiguous

The prefix form of an expression is cut into words by its blanks, commas and parentheses. Its first
word tells what kind of expression it is: nothing stands before the parenthesis of an operator, a
name stands before that of a call, and a literal or a variable has another mark behind it. So the
words of an expression tell where it ends, whatever follows, and the expression can be told from its
text up to where its nodes stand.

## Main definitions

* `Expr.Plain` — expressions with values, their names identifiers and their floats finite.
* `Expr.words` — the words of the prefix form.

## Main statements

* `Expr.words_append_inj` — the words of an expression can be told from what follows them.
* `Expr.text_eq_iff` — expressions with the same prefix form are the same up to positions.
-/
namespace ProcLang

/-! ## Literals and names -/

/-- A literal other than an infinity and what is not a number. -/
def Literal.IsFinite : Literal → Prop
  | .float x => x.IsFinite
  | .int _ | .bool _ => True

instance : DecidablePred Literal.IsFinite
  | .float x => inferInstanceAs (Decidable x.IsFinite)
  | .int _ => .isTrue trivial
  | .bool _ => .isTrue trivial

/-- A text that starts like a name. -/
def StartsWord (s : String) : Prop := ∃ c cs, s.toList = c :: cs ∧ isWordStart c = true

/-- A text that starts like a number. -/
def StartsNumber (s : String) : Prop := ∃ c cs, s.toList = c :: cs ∧ (c.isDigit = true ∨ c = '-')

theorem StartsWord.not_startsNumber {s : String} (h : StartsWord s) : ¬ StartsNumber s := by
  rintro ⟨c', cs', heq', hc'⟩
  obtain ⟨c, cs, heq, hc⟩ := h
  rw [heq] at heq'
  obtain ⟨rfl, -⟩ := List.cons.inj heq'
  rcases hc' with hdigit | rfl
  · exact Bool.false_ne_true ((isDigit_eq_false_of_isWordStart hc).symm.trans hdigit)
  · exact absurd hc (by decide)

theorem startsNumber_toString (i : Int) : StartsNumber (toString i) := by
  rw [StartsNumber, toList_toString]
  split
  · exact ⟨_, _, rfl, .inr rfl⟩
  · have hne : Nat.toDigits 10 i.natAbs ≠ [] := Nat.toDigits_ne_nil
    obtain ⟨c, cs, hcs⟩ := List.exists_cons_of_ne_nil hne
    exact ⟨c, cs, hcs, .inl (isDigit_of_mem_toDigits (hcs ▸ List.mem_cons_self))⟩

namespace Literal

theorem startsWord_boolText (b : Bool) : StartsWord (boolText b) := by
  cases b with
  | false => exact ⟨'f', ['a', 'l', 's', 'e'], rfl, rfl⟩
  | true => exact ⟨'t', ['r', 'u', 'e'], rfl, rfl⟩

theorem boolText_mem_reservedWords (b : Bool) : boolText b ∈ reservedWords := by
  cases b <;> decide

theorem isWord_text {v : Literal} (h : v.IsFinite) : IsWord v.text := by
  cases v with
  | int i => exact isWord_toString _
  | float x =>
    intro c hc
    rcases Double.mem_text h hc with hd | rfl | rfl | rfl
    · exact isMark_eq_false_of_isDigit hd
    · rfl
    · rfl
    · rfl
  | bool b => cases b <;> decide

theorem text_ne_empty {v : Literal} (h : v.IsFinite) : v.text ≠ "" := by
  have hstart : StartsNumber v.text ∨ StartsWord v.text := by
    cases v with
    | int i => exact .inl (startsNumber_toString _)
    | float x => exact .inl (Double.text_start h)
    | bool b => exact .inr (startsWord_boolText b)
  intro heq
  rw [heq] at hstart
  rcases hstart with ⟨c, cs, hcs, -⟩ | ⟨c, cs, hcs, -⟩ <;> cases hcs

/-- Finite literals with the same text are equal. -/
theorem eq_of_text_eq {v w : Literal} (hv : v.IsFinite) (hw : w.IsFinite)
    (heq : v.text = w.text) : v = w := by
  have hbool : ∀ b s, StartsNumber s → boolText b ≠ s :=
    fun b s hs hb => (startsWord_boolText b).not_startsNumber (hb ▸ hs)
  cases v with
  | int i =>
    cases w with
    | int j => rw [Int64.toInt_inj.mp (eq_of_toString_eq heq)]
    | float y => exact absurd heq.symm (Double.text_ne_toString hw _)
    | bool b => exact absurd heq.symm (hbool b _ (startsNumber_toString _))
  | float x =>
    cases w with
    | int j => exact absurd heq (Double.text_ne_toString hv _)
    | float y => rw [Double.eq_of_text_eq hv hw heq]
    | bool b => exact absurd heq.symm (hbool b _ (Double.text_start hv))
  | bool b =>
    cases w with
    | int j => exact absurd heq (hbool b _ (startsNumber_toString _))
    | float y => exact absurd heq (hbool b _ (Double.text_start hw))
    | bool c => cases b <;> cases c <;> first | rfl | exact absurd heq (by decide)

end Literal

namespace IsIdentifier

/-- A literal is not written like a name. -/
theorem ne_literal {name : String} (h : IsIdentifier name) {v : Literal} (hv : v.IsFinite) :
    v.text ≠ name := by
  intro heq
  cases v with
  | int i => exact StartsWord.not_startsNumber h.start (heq ▸ startsNumber_toString _)
  | float x => exact StartsWord.not_startsNumber h.start (heq ▸ Double.text_start hv)
  | bool b => exact h.free (heq ▸ Literal.boolText_mem_reservedWords b)

theorem ne_empty {name : String} (h : IsIdentifier name) : name ≠ "" := by
  obtain ⟨c, cs, hcs, -⟩ := h.start
  rintro rfl
  cases hcs

end IsIdentifier

theorem Operator.isWord_text (op : Operator) : IsWord op.text := by cases op <;> decide

theorem Operator.eq_of_text_eq {op op' : Operator} (h : op.text = op'.text) : op = op' := by
  cases op <;> cases op' <;> first | rfl | exact absurd h (by decide)

/-! ## Words of an expression -/

namespace Expr

mutual

/-- An expression with a value whose names are identifiers and whose literals are finite. -/
def Plain : Expr → Prop
  | .literal value _ => value.IsFinite
  | .var name _ => IsIdentifier name
  | .binary _ lhs rhs _ => Plain lhs ∧ Plain rhs
  | .call name args _ => IsIdentifier name ∧ AllPlain args
  | .return _ _ | .assign _ _ _ _ => False

def AllPlain : List Expr → Prop
  | [] => True
  | e :: es => Plain e ∧ AllPlain es

end

mutual

/-- The words of the prefix form of an expression with `mark` behind it. -/
def words : Expr → Char → Words
  | .literal value _, mark => [(value.text, mark)]
  | .var name _, mark => [(name, mark)]
  | .binary op lhs rhs _, mark =>
    ("", '(') :: (op.text, ' ') :: (words lhs ' ' ++ (words rhs ')' ++ [("", mark)]))
  | .call name args _, mark => (name, '(') :: (argWords args ++ [("", mark)])
  | .return _ _, _ | .assign _ _ _ _, _ => []

/-- The words of the arguments of a call, up to the parenthesis that closes it. -/
def argWords : List Expr → Words
  | [] => [("", ')')]
  | [e] => words e ')'
  | e :: e' :: es => words e ',' ++ ("", ' ') :: argWords (e' :: es)

end

mutual

theorem chars_words (e : Expr) (h : e.Plain) (mark : Char) :
    (e.words mark).chars = e.text.toList ++ [mark] := by
  match e with
  | .literal value _ | .var name _ => simp [words, text]
  | .binary op lhs rhs _ =>
    rw [words, Words.chars_cons, Words.chars_cons, Words.chars_append, Words.chars_append,
      chars_words lhs h.1, chars_words rhs h.2]
    simp [text]
  | .call name args _ =>
    rw [words, Words.chars_cons, Words.chars_append, chars_argWords args h.2]
    simp [text]

theorem chars_argWords (es : List Expr) (h : AllPlain es) :
    (argWords es).chars = (Dump.separated (texts es)).toList ++ [')'] := by
  match es with
  | [] => simp [argWords, texts, Dump.separated]
  | [e] =>
    rw [argWords, chars_words e h.1]
    simp [texts, Dump.separated]
  | e :: e' :: es =>
    rw [argWords, Words.chars_append, Words.chars_cons, chars_words e h.1,
      chars_argWords (e' :: es) h.2]
    simp [texts, Dump.separated, String.intercalate_cons_cons]

end

mutual

theorem clear_words (e : Expr) (h : e.Plain) {mark : Char} (hm : isMark mark = true) :
    (e.words mark).Clear := by
  match e with
  | .literal value _ =>
    rw [words, Words.clear_cons]
    exact ⟨⟨Literal.isWord_text h, hm⟩, Words.clear_nil⟩
  | .var name _ =>
    rw [words, Words.clear_cons]
    exact ⟨⟨IsIdentifier.isName h |>.1, hm⟩, Words.clear_nil⟩
  | .binary op lhs rhs _ =>
    simp only [words, Words.clear_cons, Words.clear_append]
    exact ⟨⟨by decide, rfl⟩, ⟨op.isWord_text, rfl⟩, clear_words lhs h.1 rfl,
      clear_words rhs h.2 rfl, ⟨by decide, hm⟩, Words.clear_nil⟩
  | .call name args _ =>
    simp only [words, Words.clear_cons, Words.clear_append]
    exact ⟨⟨h.1.isName.1, rfl⟩, clear_argWords args h.2, ⟨by decide, hm⟩, Words.clear_nil⟩

theorem clear_argWords (es : List Expr) (h : AllPlain es) : (argWords es).Clear := by
  match es with
  | [] => simp [argWords, IsWord, isMark]
  | [e] => exact clear_words e h.1 rfl
  | e :: e' :: es =>
    simp only [argWords, Words.clear_append, Words.clear_cons]
    exact ⟨clear_words e h.1 rfl, ⟨by decide, rfl⟩, clear_argWords (e' :: es) h.2⟩

end

/-! ## Telling expressions apart -/

/-- An expression does not start with an empty word, except before a parenthesis. -/
theorem words_append_ne {e : Expr} {s s' : Words} {m m' : Char} (h : e.Plain) (hm : m' ≠ '(') :
    e.words m ++ s ≠ ("", m') :: s' := by
  intro heq
  cases e with
  | literal value pos => exact Literal.text_ne_empty h (Words.cons_inj heq).1
  | var name pos => exact IsIdentifier.ne_empty h (Words.cons_inj heq).1
  | binary op lhs rhs pos => exact hm (Words.cons_inj heq).2.1.symm
  | call name args pos => exact hm (Words.cons_inj heq).2.1.symm
  | «return» values pos => exact h
  | assign name ty value pos => exact h

mutual

/-- The words of an expression tell where it ends. -/
theorem words_append_inj (e e' : Expr) {s s' : Words} {m m' : Char} (h : e.Plain)
    (h' : e'.Plain) (hm : m ≠ '(') (hm' : m' ≠ '(')
    (heq : e.words m ++ s = e'.words m' ++ s') : e.erase = e'.erase ∧ m = m' ∧ s = s' := by
  -- Only operators and calls have a parenthesis behind their first word, and only calls a name
  -- before it.
  match e with
  | .literal value _ =>
    cases e' with
    | literal value' _ =>
      obtain ⟨htext, hmark, hs⟩ := Words.cons_inj heq
      exact ⟨by rw [erase, erase, Literal.eq_of_text_eq h h' htext], hmark, hs⟩
    | var name' _ => exact absurd (Words.cons_inj heq).1 (IsIdentifier.ne_literal h' h)
    | binary | call => exact absurd (Words.cons_inj heq).2.1 hm
    | «return» | assign => exact h'.elim
  | .var name _ =>
    cases e' with
    | literal value' _ => exact absurd (Words.cons_inj heq).1.symm (IsIdentifier.ne_literal h h')
    | var name' _ =>
      obtain ⟨hname, hmark, hs⟩ := Words.cons_inj heq
      exact ⟨congrArg (Expr.var · none) hname, hmark, hs⟩
    | binary | call => exact absurd (Words.cons_inj heq).2.1 hm
    | «return» | assign => exact h'.elim
  | .binary op lhs rhs _ =>
    cases e' with
    | literal | var => exact absurd (Words.cons_inj heq).2.1.symm hm'
    | call name' args' _ => exact absurd (Words.cons_inj heq).1.symm h'.1.ne_empty
    | binary op' lhs' rhs' _ =>
      simp only [words, List.cons_append, List.append_assoc, List.nil_append, List.cons.injEq,
        Prod.mk.injEq, and_true, true_and] at heq
      obtain ⟨hop, heq⟩ := heq
      obtain ⟨hlhs, -, heq⟩ := words_append_inj lhs lhs' h.1 h'.1 (by decide) (by decide) heq
      obtain ⟨hrhs, -, heq⟩ := words_append_inj rhs rhs' h.2 h'.2 (by decide) (by decide) heq
      obtain ⟨-, hmark, hs⟩ := Words.cons_inj heq
      refine ⟨?_, hmark, hs⟩
      rw [erase, erase, Operator.eq_of_text_eq hop, hlhs, hrhs]
    | «return» | assign => exact h'.elim
  | .call name args _ =>
    cases e' with
    | literal | var => exact absurd (Words.cons_inj heq).2.1.symm hm'
    | binary => exact absurd (Words.cons_inj heq).1 h.1.ne_empty
    | call name' args' _ =>
      simp only [words, List.cons_append, List.append_assoc, List.nil_append, List.cons.injEq,
        Prod.mk.injEq, and_true] at heq
      obtain ⟨hname, heq⟩ := heq
      obtain ⟨hargs, heq⟩ := argWords_append_inj args args' h.2 h'.2 heq
      obtain ⟨-, hmark, hs⟩ := Words.cons_inj heq
      refine ⟨?_, hmark, hs⟩
      rw [erase, erase, hname, hargs]
    | «return» | assign => exact h'.elim
  | .return _ _ | .assign _ _ _ _ => exact h.elim

theorem argWords_append_inj (es es' : List Expr) {s s' : Words} (h : AllPlain es)
    (h' : AllPlain es') (heq : argWords es ++ s = argWords es' ++ s') :
    eraseAll es = eraseAll es' ∧ s = s' := by
  match es, es' with
  | [], [] => exact ⟨rfl, (List.cons.inj heq).2⟩
  | [], [e'] => exact absurd heq.symm (words_append_ne h'.1 (by decide))
  | [], e' :: f' :: fs' =>
    rw [argWords, argWords, List.append_assoc] at heq
    exact absurd heq.symm (words_append_ne h'.1 (by decide))
  | [e], [] => exact absurd heq (words_append_ne h.1 (by decide))
  | e :: f :: fs, [] =>
    rw [argWords, argWords, List.append_assoc] at heq
    exact absurd heq (words_append_ne h.1 (by decide))
  | [e], [e'] =>
    obtain ⟨he, -, hs⟩ := words_append_inj e e' h.1 h'.1 (by decide) (by decide) heq
    exact ⟨congrArg ([·]) he, hs⟩
  | [e], e' :: f' :: fs' =>
    rw [argWords, argWords, List.append_assoc] at heq
    exact absurd (words_append_inj e e' h.1 h'.1 (by decide) (by decide) heq).2.1 (by decide)
  | e :: f :: fs, [e'] =>
    rw [argWords, argWords, List.append_assoc] at heq
    exact absurd (words_append_inj e e' h.1 h'.1 (by decide) (by decide) heq).2.1 (by decide)
  | e :: f :: fs, e' :: f' :: fs' =>
    rw [argWords, argWords, List.append_assoc, List.append_assoc] at heq
    obtain ⟨he, -, heq⟩ := words_append_inj e e' h.1 h'.1 (by decide) (by decide) heq
    obtain ⟨hes, hs⟩ := argWords_append_inj (f :: fs) (f' :: fs') h.2 h'.2 (List.cons.inj heq).2
    exact ⟨congrArg₂ List.cons he hes, hs⟩

end

mutual

/-- Where its nodes stand does not show in the prefix form of an expression. -/
theorem text_erase (e : Expr) : e.erase.text = e.text := by
  match e with
  | .literal _ _ | .var _ _ => rfl
  | .binary op lhs rhs _ => rw [erase, text, text, text_erase lhs, text_erase rhs]
  | .call name args _ => rw [erase, text, text, texts_eraseAll args]
  | .return [] _ => rfl
  | .return (v :: values) _ =>
    rw [erase, eraseAll, text, text, texts, texts, text_erase v, texts_eraseAll values]
  | .assign name (some ty) value _ => rw [erase, text, text, text_erase value]
  | .assign name none value _ => rw [erase, text, text, text_erase value]

theorem texts_eraseAll (es : List Expr) : texts (eraseAll es) = texts es := by
  match es with
  | [] => rfl
  | e :: es => rw [eraseAll, texts, texts, text_erase e, texts_eraseAll es]

end

/-- Expressions have the same prefix form exactly if they differ at most in where their nodes
stand. -/
theorem text_eq_iff {e e' : Expr} (h : e.Plain) (h' : e'.Plain) :
    e.text = e'.text ↔ e.erase = e'.erase := by
  constructor
  · intro heq
    have hchars : (e.words '\n').chars = (e'.words '\n').chars := by
      rw [chars_words e h, chars_words e' h', heq]
    have hwords := Words.eq_of_chars_eq (clear_words e h rfl) (clear_words e' h' rfl) hchars
    exact (words_append_inj e e' h h' (by decide) (by decide) (congrArg (· ++ []) hwords)).1
  · intro heq
    rw [← text_erase e, heq, text_erase]

/-- Calls, operators, numbers of both kinds, a truth value and a variable, all standing at `pos`. -/
def prefixSample (pos : Option Position) : Expr :=
  .binary .idiv
    (.call "f" [.var "x" pos, .literal (.float ⟨0x4004000000000000⟩) pos, .call "g" [] pos] pos)
    (.binary .lt (.literal (.int (-1)) pos) (.literal (.bool true) pos) pos) pos

theorem plain_prefixSample (pos : Option Position) : (prefixSample pos).Plain := by
  have hf : IsIdentifier "f" := ⟨⟨'f', [], rfl, rfl⟩, by simp [isWordChar], by decide⟩
  have hg : IsIdentifier "g" := ⟨⟨'g', [], rfl, rfl⟩, by simp [isWordChar], by decide⟩
  have hx : IsIdentifier "x" := ⟨⟨'x', [], rfl, rfl⟩, by simp [isWordChar], by decide⟩
  have hfinite : Double.IsFinite ⟨0x4004000000000000⟩ := by decide
  exact ⟨⟨hf, hx, hfinite, ⟨hg, trivial⟩, trivial⟩, trivial, trivial⟩

theorem text_eq_iff_prefixSample :
    (prefixSample none).Plain ∧ (prefixSample (some ⟨7, 1, 2, 3⟩)).Plain ∧
      (prefixSample none).text = "(// f(x, 2.5, g()) (< -1 true))" ∧
      (prefixSample (some ⟨7, 1, 2, 3⟩)).text = "(// f(x, 2.5, g()) (< -1 true))" ∧
      (prefixSample none).erase = (prefixSample (some ⟨7, 1, 2, 3⟩)).erase := by
  have htext : (prefixSample none).text = "(// f(x, 2.5, g()) (< -1 true))" := by decide +kernel
  have htext' : (prefixSample (some ⟨7, 1, 2, 3⟩)).text = "(// f(x, 2.5, g()) (< -1 true))" := by
    decide +kernel
  refine ⟨plain_prefixSample _, plain_prefixSample _, htext, htext', ?_⟩
  exact (text_eq_iff (plain_prefixSample _) (plain_prefixSample _)).mp (htext.trans htext'.symm)

end Expr
end ProcLang

import ProcLang.Proofs.Parsing.Agreement

/-!
# Readers by index stay in bounds

A scan that counts braces finds the same functions as one that knows which part of a function it is
in, and what it finds lies in the tokens, in order. So programs are read in the same way by index
and on lists of tokens, and on no tokens, however malformed, does a reader by index break down: it
has a result, or it refuses the tokens.

## Main definitions

* `Outline.Tally.Tracks` — what is counted and the mode of a scan belong together.

## Main statements

* `Outline.scanAt_eq`, `Program.parseAt_eq` — scans and programs by index.
* `readers_in_bounds` — no reader breaks down.
-/
namespace ProcLang

open Checked

namespace Outline

/-! ## Scans -/

namespace Tally

/-- The function that is not closed yet and the number of open braces, in a mode of a scan. -/
inductive Counts (ts : List Token) : Option Partial → Nat → Mode → Prop where
  | outside : Counts ts none 0 .outside
  | header {f : Opening} (hf : ts[f.start]?.map Token.pos = some f.pos) (returns : Bool) :
      Counts ts (some ⟨f.name, f.start, f.arity, returns⟩) 0 (.header f returns)
  | body {f : Opening} (hf : ts[f.start]?.map Token.pos = some f.pos) (returns : Bool)
      (depth : Nat) :
      Counts ts (some ⟨f.name, f.start, f.arity, returns⟩) (depth + 1) (.body f depth)

/-- What is counted belongs to a mode and an outline. -/
def Follows (ts : List Token) (s : Tally) (x : Mode × Outline) : Prop :=
  Counts ts s.current s.depth x.1 ∧ s.outline = x.2

variable {ts : List Token} {i : Nat} {o : Outline}

/-- A name is looked for only behind a token. -/
theorem agrees_outside {previous : Option Token} (hi : i ≤ ts.length)
    (hp : previous = if i = 0 then none else ts[i - 1]?) (t : Token) :
    Agrees (Follows ts) (step ts i t ⟨none, 0, o⟩) (Scan.next ⟨i, previous, .outside, o⟩ t) := by
  simp only [step]
  split
  next hk =>
    simp only [Scan.next, hk, if_true]
    by_cases hzero : i = 0
    · rw [if_pos hzero] at hp ⊢
      rw [hp]
      exact .refused _
    · have hget : ts[i - 1]? = some ts[i - 1] := List.getElem?_eq_getElem (by omega)
      rw [if_neg hzero, hget] at hp
      rw [if_neg hzero, hp, sub_eq (by omega)]
      change Agrees _ (get ts (i - 1) >>= _) _
      rw [get_eq hget]
      generalize ts[i - 1] = before at hget
      obtain ⟨kind, pos⟩ := before
      cases kind with
      | ident name => exact .ok ⟨.header (f := ⟨name, i - 1, pos, 0⟩) (by simp [hget]) false, rfl⟩
      | literal | type | keyword | symbol | eof => exact .refused _
  next ty hk =>
    simp only [Scan.next, hk, if_true]
    exact .ok ⟨.outside, rfl⟩
  next hk =>
    simp only [Scan.next, hk, if_true]
    exact .ok ⟨.outside, rfl⟩
  next hk =>
    simp only [Scan.next, hk]
    exact .refused _
  next hk =>
    simp only [Scan.next, hk, if_true]
    exact .refused _
  next =>
    simp only [Scan.next]
    exact .ok ⟨.outside, rfl⟩

theorem agrees_header {previous : Option Token} {f : Opening}
    (hf : ts[f.start]?.map Token.pos = some f.pos) (returns : Bool) (t : Token) :
    Agrees (Follows ts) (step ts i t ⟨some ⟨f.name, f.start, f.arity, returns⟩, 0, o⟩)
      (Scan.next ⟨i, previous, .header f returns, o⟩ t) := by
  simp only [step]
  split
  next hk =>
    simp only [Scan.next, hk, if_true]
    exact .refused _
  next ty hk =>
    simp only [Scan.next, hk, if_true]
    cases returns with
    | true => exact .ok ⟨.header hf true, rfl⟩
    | false => exact .ok ⟨.header (f := { f with arity := f.arity + 1 }) hf false, rfl⟩
  next hk =>
    simp only [Scan.next, hk, if_true]
    exact .ok ⟨.header hf true, rfl⟩
  next hk =>
    simp only [Scan.next, hk]
    exact .ok ⟨.body hf returns 0, rfl⟩
  next hk =>
    simp only [Scan.next, hk, if_true]
    exact .refused _
  next =>
    simp only [Scan.next]
    exact .ok ⟨.header hf returns, rfl⟩

/-- A brace is closed only where one is open. -/
theorem agrees_body {previous : Option Token} {f : Opening}
    (hf : ts[f.start]?.map Token.pos = some f.pos) (returns : Bool) (depth : Nat) (t : Token) :
    Agrees (Follows ts) (step ts i t ⟨some ⟨f.name, f.start, f.arity, returns⟩, depth + 1, o⟩)
      (Scan.next ⟨i, previous, .body f depth, o⟩ t) := by
  have hopen : ¬ depth + 1 = 0 := by omega
  simp only [step]
  split
  next hk =>
    simp only [Scan.next, hk, if_neg hopen]
    exact .ok ⟨.body hf returns depth, rfl⟩
  next ty hk =>
    simp only [Scan.next, hk, if_neg hopen]
    exact .ok ⟨.body hf returns depth, rfl⟩
  next hk =>
    simp only [Scan.next, hk, if_neg hopen]
    exact .ok ⟨.body hf returns depth, rfl⟩
  next hk =>
    simp only [Scan.next, hk]
    exact .ok ⟨.body hf returns (depth + 1), rfl⟩
  next hk =>
    simp only [Scan.next, hk, if_neg hopen]
    rw [sub_eq (by omega)]
    cases depth with
    | succ depth => exact .ok ⟨.body hf returns depth, rfl⟩
    | zero =>
      change Agrees _ (of (o.insert ⟨f.name, f.start, i, f.arity⟩) >>= _) _
      cases o.insert ⟨f.name, f.start, i, f.arity⟩ with
      | error e => exact .refused e
      | ok outline => exact .ok ⟨.outside, rfl⟩
  next =>
    simp only [Scan.next]
    exact .ok ⟨.body hf returns depth, rfl⟩

/-- What is counted when `i` tokens are read belongs to a scan that has read them. -/
structure Tracks (ts : List Token) (i : Nat) (s : Tally) (c : Scan) : Prop where
  follows : Follows ts s (c.mode, c.outline)
  index : c.index = i
  previous : c.previous = if i = 0 then none else ts[i - 1]?

theorem agrees_step {s : Tally} {c : Scan} (h : Tracks ts i s c) {t : Token}
    (ht : ts[i]? = some t) : Agrees (Tracks ts (i + 1)) (s.step ts i t) (c.step t) := by
  have hi : i < ts.length := (List.getElem?_eq_some_iff.mp ht).1
  have hnext : Agrees (Follows ts) (s.step ts i t) (c.next t) := by
    obtain ⟨current, depth, outline⟩ := s
    obtain ⟨index, previous, mode, o⟩ := c
    obtain ⟨⟨hcounts, houtline⟩, hindex, hprevious⟩ := h
    cases houtline
    cases hindex
    cases hcounts with
    | outside => exact agrees_outside (Nat.le_of_lt hi) hprevious t
    | header hf returns => exact agrees_header hf returns t
    | body hf returns depth => exact agrees_body hf returns depth t
  have hstep : c.step t = (c.next t).map fun x => ⟨c.index + 1, some t, x.1, x.2⟩ := by
    unfold Scan.step
    cases c.next t <;> rfl
  rw [hstep]
  refine hnext.map_right fun s' x hfollows => ⟨hfollows, ?_, ?_⟩
  · rw [h.index]
  · rw [if_neg (by omega), Nat.add_sub_cancel, ht]

theorem agrees_run {s : Tally} {c : Scan} (h : Tracks ts i s c) {left : List Token}
    (hleft : ts.drop i = left) : Agrees (fun s c => Follows ts s (c.mode, c.outline))
      (s.run ts i left) (c.run left) := by
  induction left generalizing i s c with
  | nil => exact .ok h.follows
  | cons t left ih =>
    obtain ⟨ht, hrest⟩ := drop_cons hleft
    have hrun : c.run (t :: left) = c.step t >>= (·.run left) := by
      rw [Scan.run]
      cases c.step t <;> rfl
    rw [run, hrun]
    exact (agrees_step h ht).bind fun s' c' _ htracks => ih htracks hrest

end Tally

/-- Both scans find the same functions. -/
theorem scanAt_eq (ts : List Token) : scanAt ts = of (scan ts) := by
  have hstart : Tally.Tracks ts 0 ⟨none, 0, empty⟩ Scan.start := ⟨⟨.outside, rfl⟩, rfl, rfl⟩
  have hscan : scan ts = Scan.start.run ts >>= Scan.finish := by
    unfold scan
    cases Scan.start.run ts <;> rfl
  rw [hscan]
  refine ((Tally.agrees_run hstart rfl).bind fun s c _ hfollows => ?_).eq_of
  obtain ⟨current, depth, outline⟩ := s
  obtain ⟨index, previous, mode, o⟩ := c
  obtain ⟨hcounts, houtline⟩ := hfollows
  cases houtline
  cases hcounts with
  | outside => exact .ok rfl
  | header hf returns =>
    simp only [hf]
    exact .refused _
  | body hf returns depth =>
    simp only [hf]
    exact .refused _

/-! ## Programs -/

theorem checkBetween_append (ts us : List Token) :
    checkBetween (ts ++ us) = checkBetween ts >>= fun _ => checkBetween us := by
  unfold checkBetween
  rw [List.find?_append]
  cases ts.find? fun t => !t.isBreak && !t.isEof <;> rfl

theorem of_checkOutside (o : Outline) (ts : List Token) :
    of (o.checkOutside ts) = checkBetween (o.outside ts) := by
  unfold checkOutside checkBetween
  cases (o.outside ts).find? fun t => !t.isBreak && !t.isEof <;> rfl

/-- A function starts behind the one before it, so the tokens between them can be cut out. -/
theorem checkOutsideAt_eq {ts : List Token} {start : Nat} {es : List Entry}
    (hstart : ∀ e ∈ es, start ≤ e.start) (hlength : ∀ e ∈ es, e.start ≤ ts.length)
    (hordered : es.Pairwise fun e e' => e.stop < e'.start) :
    checkOutsideAt ts start es = checkBetween (gaps ts start es) := by
  induction es generalizing start with
  | nil =>
    have hcut : cut ts (min start ts.length) ts.length = .ok (ts.drop start) := by
      have hdrop : ts.drop (min start ts.length) = ts.drop start :=
        List.drop_eq_drop_iff.mpr (by omega)
      rw [cut_eq (Nat.min_le_right _ _) (Nat.le_refl _), slice, List.take_length, hdrop]
    rw [checkOutsideAt, hcut]
    rfl
  | cons e es ih =>
    obtain ⟨he, -⟩ := List.forall_mem_cons.mp hstart
    obtain ⟨hle, hles⟩ := List.forall_mem_cons.mp hlength
    obtain ⟨hbefore, hes⟩ := List.pairwise_cons.mp hordered
    rw [checkOutsideAt, cut_eq he hle, gaps, checkBetween_append, ← ih hbefore hles hes]
    rfl

end Outline

open Outline

/-- The name and the `::` of a function stand before the `{` of its body, and the `}` behind it. -/
theorem Declaration.parseAt_eq (o : Outline) {ts : List Token} {e : Entry} {s : Section}
    (hname : e.name = s.name) (htokens : e.tokens ts = s.tokens) (horder : e.start ≤ e.stop)
    (hlength : e.stop < ts.length) :
    Declaration.parseAt o ts e = of (Declaration.parse o e.name (e.tokens ts)) := by
  have hcut : cut ts e.start (e.stop + 1) = .ok s.tokens := by
    rw [cut_eq (by omega) hlength, ← htokens]
    rfl
  have hopening : s.tokens.findIdx? Token.opensBlock = some s.front.length := by
    have hfront : s.front.findIdx? Token.opensBlock = none := by
      rw [List.findIdx?_eq_none_iff]
      intro t ht
      exact beq_false_of_ne (s.not_open_of_mem_front ht)
    have hbrace : Token.opensBlock ⟨.symbol .braceOpen, s.opening⟩ = true := rfl
    rw [s.tokens_eq, List.findIdx?_append, hfront, List.findIdx?_cons, hbrace]
    simp
  have hlen := s.length_tokens
  have hheader : cut s.tokens 2 s.front.length = .ok s.header := by
    have hfront : s.front.length = 2 + s.header.length := by rw [s.length_front, Nat.add_comm]
    rw [hfront]
    exact cut_of_drop (by omega) rfl
  have hbody : cut s.tokens (s.front.length + 1) (s.tokens.length - 1) = .ok s.body := by
    have hdrop : s.tokens.drop (s.front.length + 1) =
        s.body ++ [⟨.symbol .braceClose, s.closing⟩] := by
      rw [s.tokens_eq, List.drop_length_add_append]
      rfl
    rw [show s.tokens.length - 1 = s.front.length + 1 + s.body.length by omega]
    exact cut_of_drop (by omega) hdrop
  have hlast : sub s.tokens.length 1 = .ok (s.tokens.length - 1) := sub_eq (by omega)
  rw [Declaration.parseAt, hcut, hname, htokens, Section.parse_eq]
  simp only [bind, Except.bind, hopening, hheader, hlast, hbody, Stmt.parseAt_eq]
  cases Header.parse s.name s.header with
  | error e => rfl
  | ok x =>
    simp only [of_ok, List.drop_zero]
    cases Stmt.parse o s.body <;> rfl

theorem Program.parseAt_eq (ts : List Token) : Program.parseAt ts = of (Program.parse ts) := by
  unfold Program.parseAt Program.parse
  rw [scanAt_eq]
  refine (Agrees.of_bind fun o ho => ?_).eq_of
  obtain ⟨ss, hss, hentries, hnames⟩ := scan_eq_ok.mp ho
  obtain ⟨entries⟩ := o
  change entries = entriesOf ss at hentries
  subst hentries
  have hexact := hss.exact hnames
  have hlength : ∀ e ∈ entriesOf ss, e.stop < ts.length := by
    intro e he
    obtain ⟨opening, hentry⟩ := hexact.entries e he
    obtain ⟨p, hp⟩ := hentry.closes
    exact (List.getElem?_eq_some_iff.mp hp).1
  have horder : ∀ e ∈ entriesOf ss, e.start ≤ e.stop := by
    intro e he
    obtain ⟨opening, hentry⟩ := hexact.entries e he
    have := hentry.behind_colons
    have := hentry.before_stop
    omega
  have houtside : checkOutsideAt ts 0 (entriesOf ss) = of (checkOutside ⟨entriesOf ss⟩ ts) := by
    rw [of_checkOutside]
    refine checkOutsideAt_eq (fun _ _ => Nat.zero_le _) (fun e he => ?_) hexact.ordered
    have := hlength e he
    have := horder e he
    omega
  have hdecls : (entriesOf ss).mapM (Declaration.parseAt ⟨entriesOf ss⟩ ts) =
      of ((entriesOf ss).mapM fun e => Declaration.parse ⟨entriesOf ss⟩ e.name (e.tokens ts)) := by
    refine of_mapM fun e he => ?_
    obtain ⟨x, hx, rfl⟩ := List.mem_map.mp he
    exact Declaration.parseAt_eq _ rfl (@Sections.tokens_entry _ _ [] _ _ hss rfl x hx)
      (horder _ he) (hlength _ he)
  simp only [houtside, hdecls]
  exact .of_bind fun _ _ => agrees_of _

/-- No reader breaks down, whatever the tokens are: each gives what the reader on lists gives. -/
theorem readers_in_bounds (o : Outline) (ts : List Token) :
    Outline.scanAt ts = of (Outline.scan ts) ∧ Program.parseAt ts = of (Program.parse ts) ∧
      (∀ pos, Stmt.parseAt o ts pos = of (Stmt.parse o (ts.drop pos))) ∧
      Expr.parseAt o ts = of (Expr.parse o ts) :=
  ⟨scanAt_eq ts, Program.parseAt_eq ts, Stmt.parseAt_eq o ts, Expr.parseAt_eq o ts⟩

end ProcLang

import ProcLang.Proofs.Parsing.Boundaries

/-!
# Reading by index

The readers of expressions, statements and programs take tokens off the front of a list, which
cannot go wrong. Here are the same readers with indices. They cut tokens out between two indices,
count depths up and down, take arguments off the end of a stack, and call each other at any index.
Each of these has a condition; where it fails, the reader breaks down.

## Main definitions

* `Breakdown`, `Checked` — results of readers that can break down.
* `Checked.cut`, `Checked.sub`, `Checked.fewer` — what can make a reader break down.
* `Outline.scanAt`, `Expr.parseAt`, `Stmt.parseAt`, `Program.parseAt` — the readers.
-/
namespace ProcLang

/-- Why a reader by index has no result. -/
inductive Breakdown where
  /-- The tokens are no program. -/
  | refused (e : ParseError)
  /-- An index is out of range, or the end of a slice is before its start. -/
  | range
  /-- A number is less than what is to be taken from it. -/
  | negative
  /-- A reader is called with no fewer tokens before it than its caller had. -/
  | endless

/-- The result of a reader by index. -/
abbrev Checked (α : Type) : Type := Except Breakdown α

namespace Checked

variable {α : Type}

/-- A result that is there, or refused. -/
def of (x : Except ParseError α) : Checked α := x.mapError .refused

/-- The tokens are refused. -/
def refuse (cause : ParseCause) (pos : Option Position) : Checked α :=
  .error (.refused ⟨cause, pos⟩)

/-- What stands from index `i` up to index `j`, the latter not included. -/
def cut (l : List α) (i j : Nat) : Checked (List α) :=
  if i ≤ j ∧ j ≤ l.length then .ok (slice l i j) else .error .range

/-- What stands at an index. -/
def get (l : List α) (i : Nat) : Checked α :=
  match l[i]? with
  | some a => .ok a
  | none => .error .range

/-- The difference of two numbers. -/
def sub (m n : Nat) : Checked Nat := if n ≤ m then .ok (m - n) else .error .negative

/-- A call with `m` tokens left, by a reader that has `n`. -/
def fewer (m n : Nat) (call : m < n → Checked α) : Checked α :=
  if h : m < n then call h else .error .endless

theorem cut_eq {l : List α} {i j : Nat} (hi : i ≤ j) (hj : j ≤ l.length) :
    cut l i j = .ok (slice l i j) := if_pos ⟨hi, hj⟩

theorem cut_of_drop {l mid after : List α} {i : Nat} (hi : i ≤ l.length)
    (h : l.drop i = mid ++ after) : cut l i (i + mid.length) = .ok mid := by
  have hlen : mid.length ≤ l.length - i := by
    rw [← List.length_drop, h, List.length_append]
    omega
  rw [cut_eq (by omega) (by omega), slice, List.drop_take, h, Nat.add_sub_cancel_left,
    List.take_left]

theorem get_eq {l : List α} {i : Nat} {a : α} (h : l[i]? = some a) : get l i = .ok a := by
  simp only [get, h]

theorem sub_eq {m n : Nat} (h : n ≤ m) : sub m n = .ok (m - n) := if_pos h

theorem fewer_eq {m n : Nat} {call : m < n → Checked α} (h : m < n) :
    fewer m n call = call h := dif_pos h

end Checked

/-- The first index from `pos` on at which `p` does not hold. -/
def skip (p : Token → Bool) (ts : List Token) (pos : Nat) : Nat :=
  pos + ((ts.drop pos).takeWhile p).length

theorem drop_cons {ts rest : List Token} {i : Nat} {t : Token} (h : ts.drop i = t :: rest) :
    ts[i]? = some t ∧ ts.drop (i + 1) = rest := by
  constructor
  · rw [← List.head?_drop, h]
    rfl
  · rw [← List.drop_drop, h]
    rfl

section Skip

variable (p : Token → Bool) (ts : List Token) (pos : Nat)

theorem drop_skip : ts.drop (skip p ts pos) = (ts.drop pos).dropWhile p := by
  rw [skip, ← List.drop_drop]
  nth_rewrite 2 [← @List.takeWhile_append_dropWhile _ p (ts.drop pos)]
  exact List.drop_left

theorem getElem?_skip : ts[skip p ts pos]? = ((ts.drop pos).dropWhile p).head? := by
  rw [← drop_skip, List.head?_drop]

theorem cut_skip (h : pos ≤ ts.length) :
    Checked.cut ts pos (skip p ts pos) = .ok ((ts.drop pos).takeWhile p) :=
  Checked.cut_of_drop h List.takeWhile_append_dropWhile.symm

variable {p ts pos}

theorem skip_of_dropWhile {t : Token} {rest : List Token}
    (h : (ts.drop pos).dropWhile p = t :: rest) :
    ts.drop (skip p ts pos) = t :: rest ∧ pos ≤ skip p ts pos ∧ skip p ts pos < ts.length := by
  have hdrop : ts.drop (skip p ts pos) = t :: rest := (drop_skip p ts pos).trans h
  have hget := (drop_cons hdrop).1
  exact ⟨hdrop, Nat.le_add_right _ _, (List.getElem?_eq_some_iff.mp hget).1⟩

end Skip

/-! ## Expressions -/

namespace Expr

variable (o : Outline)

/-- Adds an item to the stack of finished subexpressions, the latest last. -/
def reduceAt (stack : List Expr) : Item → Checked (List Expr)
  | .literal value pos => .ok (stack ++ [.literal value (some pos)])
  | .operator op pos =>
    match stack.reverse with
    | rhs :: lhs :: below => .ok (below.reverse ++ [.binary op lhs rhs (some pos)])
    | _ => .refuse (.missingOperand op) (some pos)
  | .name name pos =>
    match o.get? name with
    | none => .ok (stack ++ [.var name (some pos)])
    | some entry =>
      if stack.length < entry.arity then
        .refuse (.tooFewArguments name entry.arity stack.length) (some pos)
      else do
        let start ← .sub stack.length entry.arity
        let below ← .cut stack 0 start
        let args ← .cut stack start stack.length
        return below ++ [.call name args (some pos)]

/-- The expression that the tokens spell. -/
def parseAt (ts : List Token) : Checked Expr := do
  let items ← .of (postorder o [] ts)
  let stack ← items.foldlM (reduceAt o) []
  if stack.length = 1 then .get stack 0
  else .refuse (.notOneExpression stack.length) (ts.head?.map Token.pos)

end Expr

/-! ## Statements -/

/-- The parts of the tokens `ts` between commas, of which the current one starts at index `start`;
the tokens from index `i` on are left, and `depth` parentheses are open. -/
def commaParts (ts : List Token) (start i : Nat) (depth : Int) :
    List Token → Checked (List (List Token))
  | [] => do
    let part ← .cut ts start ts.length
    return [part]
  | t :: left =>
    if t.isSymbol .parenOpen then commaParts ts start (i + 1) (depth + 1) left
    else if t.isSymbol .parenClose then commaParts ts start (i + 1) (depth - 1) left
    else if t.isSymbol .comma && depth == 0 then do
      let part ← .cut ts start i
      let parts ← commaParts ts (i + 1) (i + 1) depth left
      return part :: parts
    else commaParts ts start (i + 1) depth left

/-- The index of the brace that closes the block, if the tokens from index `i` on are left and
`depth` braces are open. -/
def blockEnd (depth i : Nat) : List Token → Checked (Option Nat)
  | [] => .ok none
  | t :: left =>
    if t.isSymbol .braceOpen then blockEnd (depth + 1) (i + 1) left
    else if t.isSymbol .braceClose then do
      let depth ← .sub depth 1
      if depth = 0 then return some i else blockEnd depth (i + 1) left
    else blockEnd depth (i + 1) left

namespace Stmt

variable (o : Outline)

/-- The values behind a `return`. -/
def parseValuesAt : List Token → Checked (List Expr)
  | [] => .ok []
  | ts => do
    let parts ← commaParts ts 0 0 0 ts
    parts.mapM (Expr.parseAt o)

/-- A statement without blocks. -/
def parseSimpleAt (ts : List Token) : Checked Expr :=
  match ts with
  | ⟨.keyword .return, pos⟩ :: values => (parseValuesAt o values).map (.return · (some pos))
  | ⟨.ident name, pos⟩ :: ⟨.symbol .assign, _⟩ :: value =>
    (Expr.parseAt o value).map (.assign name none · (some pos))
  | ⟨.type ty, pos⟩ :: ⟨.ident name, _⟩ :: ⟨.symbol .equals, _⟩ :: value
  | ⟨.type ty, pos⟩ :: ⟨.ident name, _⟩ :: ⟨.symbol .assign, _⟩ :: value =>
    (Expr.parseAt o value).map (.assign name (some ty) · (some pos))
  | ts => Expr.parseAt o ts

end Stmt

mutual

/-- The statements that the tokens from index `pos` on spell. -/
def Stmt.parseAt (o : Outline) (ts : List Token) (pos : Nat) : Checked (List Stmt) :=
  let first := skip Token.isBreak ts pos
  match ts[first]? with
  | none => .ok []
  | some t =>
    if t.isKeyword .if then do
      let (conditional, next) ← .fewer (ts.length - (first + 1)) (ts.length - pos) fun _ =>
        Conditional.parseAt o ts (first + 1) t.pos
      let ss ← .fewer (ts.length - next) (ts.length - pos) fun _ => Stmt.parseAt o ts next
      return .branch conditional :: ss
    else if t.isKeyword .else then .refuse .strayElse (some t.pos)
    else do
      let next := skip (!·.isBreak) ts first
      let simple ← .cut ts first next
      let value ← Stmt.parseSimpleAt o simple
      let ss ← .fewer (ts.length - next) (ts.length - pos) fun _ => Stmt.parseAt o ts next
      return .expr value :: ss
termination_by ts.length - pos

/-- The conditional whose `if` stands at `place` and whose guard starts at index `pos`, and the
index behind it. -/
def Conditional.parseAt (o : Outline) (ts : List Token) (pos : Nat) (place : Position) :
    Checked (Conditional × Nat) :=
  let brace := skip (!·.opensBlock) ts pos
  if ts.length ≤ brace then .refuse .missingBraceOpen (some place)
  else do
    let tokens ← .cut ts pos brace
    let guard ← Expr.parseAt o (tokens.filter (!·.isSymbol .lineBreak))
    let (body, behind) ← .fewer (ts.length - brace) (ts.length - pos) fun _ =>
      Stmt.blockAt o ts brace
    let (other, next) ← .fewer (ts.length - behind) (ts.length - pos) fun _ =>
      Otherwise.parseAt o ts behind
    return (⟨guard, body, other, some place⟩, next)
termination_by ts.length - pos

/-- What follows the block of a conditional from index `pos` on, and the index behind it. -/
def Otherwise.parseAt (o : Outline) (ts : List Token) (pos : Nat) : Checked (Otherwise × Nat) :=
  let peek := skip (·.isSymbol .lineBreak) ts pos
  match ts[peek]? with
  | none => .ok (.nothing, pos)
  | some t =>
    if t.isKeyword .else then
      match ts[peek + 1]? with
      | none => .refuse .missingElseBody (some t.pos)
      | some u =>
        if u.isKeyword .if then do
          let (conditional, next) ← .fewer (ts.length - (peek + 2)) (ts.length - pos) fun _ =>
            Conditional.parseAt o ts (peek + 2) u.pos
          return (.chain conditional, next)
        else if u.opensBlock then do
          let (body, next) ← .fewer (ts.length - (peek + 1)) (ts.length - pos) fun _ =>
            Stmt.blockAt o ts (peek + 1)
          return (.block body, next)
        else .refuse .missingElseBody (some t.pos)
    else .ok (.nothing, pos)
termination_by ts.length - pos

/-- The statements of the block whose `{` has the index `pos`, and the index behind its `}`. -/
def Stmt.blockAt (o : Outline) (ts : List Token) (pos : Nat) : Checked (List Stmt × Nat) := do
  match ← blockEnd 0 pos (ts.drop pos) with
  | none => .refuse .unclosedBrace (ts[pos]?.map Token.pos)
  | some stop =>
    let inner ← .cut ts (pos + 1) stop
    let ss ← .fewer inner.length (ts.length - pos) fun _ => Stmt.parseAt o inner 0
    return (ss, stop + 1)
termination_by ts.length - pos

end

/-! ## Programs -/

namespace Outline

/-- A function whose body is not closed yet, and whether an `->` has been seen. -/
structure Partial where
  name : String
  start : Nat
  arity : Nat
  returns : Bool

/-- A scan that counts braces. -/
structure Tally where
  current : Option Partial
  depth : Nat
  outline : Outline

namespace Tally

/-- Reads the token `t`, which is the one with index `i`. -/
def step (ts : List Token) (i : Nat) (t : Token) (s : Tally) : Checked Tally :=
  match t.kind with
  | .symbol .doubleColon =>
    if s.depth = 0 then
      match s.current with
      | some f => .refuse (.headerInHeader f.name) (some t.pos)
      | none =>
        if i = 0 then .refuse .missingFunctionName (some t.pos)
        else do
          let start ← .sub i 1
          let before ← .get ts start
          match before.ident? with
          | none => .refuse .missingFunctionName (some t.pos)
          | some name => return { s with current := some ⟨name, start, 0, false⟩ }
    else .ok s
  | .type _ =>
    if s.depth = 0 then
      .ok { s with current := s.current.map fun f =>
        if f.returns then f else { f with arity := f.arity + 1 } }
    else .ok s
  | .symbol .arrow =>
    if s.depth = 0 then .ok { s with current := s.current.map ({ · with returns := true }) }
    else .ok s
  | .symbol .braceOpen =>
    if s.depth = 0 ∧ s.current.isNone then .refuse .bodyWithoutHeader (some t.pos)
    else .ok { s with depth := s.depth + 1 }
  | .symbol .braceClose =>
    if s.depth = 0 then .refuse .strayBraceClose (some t.pos)
    else do
      let depth ← .sub s.depth 1
      match s.current with
      | none => return { s with depth := depth }
      | some f =>
        if depth = 0 then
          let outline ← .of (s.outline.insert ⟨f.name, f.start, i, f.arity⟩)
          return ⟨none, depth, outline⟩
        else return { s with depth := depth }
  | _ => .ok s

/-- Reads the tokens from index `i` on. -/
def run (ts : List Token) (i : Nat) (s : Tally) : List Token → Checked Tally
  | [] => .ok s
  | t :: left => do
    let s ← s.step ts i t
    s.run ts (i + 1) left

end Tally

/-- The outline of a list of tokens. -/
def scanAt (ts : List Token) : Checked Outline := do
  let s ← Tally.run ts 0 ⟨none, 0, empty⟩ ts
  match s.current with
  | some f => .refuse (.unclosedFunction f.name) (ts[f.start]?.map Token.pos)
  | none => return s.outline

/-- Refuses tokens between functions that are not mere breaks. -/
def checkBetween (gap : List Token) : Checked Unit :=
  match gap.find? fun t => !t.isBreak && !t.isEof with
  | some t => .refuse (.tokenOutside t) (some t.pos)
  | none => .ok ()

/-- Refuses tokens outside of the functions, from index `start` on. -/
def checkOutsideAt (ts : List Token) (start : Nat) : List Entry → Checked Unit
  | [] => do
    let gap ← .cut ts (min start ts.length) ts.length
    checkBetween gap
  | e :: es => do
    let gap ← .cut ts start e.start
    checkBetween gap
    checkOutsideAt ts (e.stop + 1) es

end Outline

/-- The function of an entry. -/
def Declaration.parseAt (o : Outline) (ts : List Token) (e : Outline.Entry) :
    Checked Declaration := do
  let tokens ← .cut ts e.start (e.stop + 1)
  let pos := tokens.head?.map Token.pos
  match tokens.findIdx? Token.opensBlock with
  | none => .refuse (.missingBody e.name) pos
  | some opening =>
    let header ← .cut tokens 2 opening
    let (params, returns) ← .of (Header.parse e.name header)
    let last ← .sub tokens.length 1
    let inner ← .cut tokens (opening + 1) last
    let body ← Stmt.parseAt o inner 0
    return ⟨e.name, params, returns, body, pos⟩

/-- The program that the tokens spell. -/
def Program.parseAt (ts : List Token) : Checked Program := do
  let o ← Outline.scanAt ts
  Outline.checkOutsideAt ts 0 o.entries
  o.entries.mapM (Declaration.parseAt o ts)

end ProcLang

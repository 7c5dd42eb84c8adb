import ProcLang.Expr
import ProcLang.Outline

/-!
# Expressions from tokens

An expression is read in two steps. The first puts its tokens into postfix order, with a stack of
operators, opened parentheses and called functions that wait for what follows. The second builds
the tree from the postfix order, with a stack of finished subexpressions. All faults of the first
step come before those of the second.

## Main definitions

* `Expr.postorder` — tokens to postfix order.
* `Expr.build` — postfix order to trees.
* `Expr.parse` — both; the tokens have to spell exactly one expression.
-/
namespace ProcLang.Expr

/-- What waits on the stack while tokens are put into postfix order. -/
inductive Pending where
  | paren (pos : Position)
  /-- A function whose arguments are being read. -/
  | call (name : String) (pos : Position)
  | operator (op : Operator) (pos : Position)
deriving DecidableEq

/-- An item of the postfix order. Whether a name is a call is decided when the tree is built. -/
inductive Item where
  | literal (value : Literal) (pos : Position)
  | name (name : String) (pos : Position)
  | operator (op : Operator) (pos : Position)
deriving DecidableEq

/-- Takes everything above the innermost open parenthesis off the stack; `none` if none is open. -/
def closeOperators : List Pending → Option (List Item × List Pending)
  | [] => none
  | .paren pos :: stack => some ([], .paren pos :: stack)
  | .call _ _ :: stack => closeOperators stack
  | .operator op pos :: stack =>
    (closeOperators stack).map fun (items, stack) => (.operator op pos :: items, stack)

/-- Takes the operators off the stack that bind at least as tightly as `op`. -/
def tighter (op : Operator) : List Pending → List Item × List Pending
  | .operator top pos :: stack =>
    if op.precedence ≤ top.precedence then
      let (items, stack) := tighter op stack
      (.operator top pos :: items, stack)
    else ([], .operator top pos :: stack)
  | stack => ([], stack)

/-- Takes a called function off the stack, if its parentheses have just been closed. -/
def finishCall : List Pending → List Item × List Pending
  | .call name pos :: stack => ([.name name pos], stack)
  | stack => ([], stack)

/-- Empties the stack at the end of the tokens. -/
def flush : List Pending → Except ParseError (List Item)
  | [] => .ok []
  | .paren pos :: _ => .error ⟨.unclosedParen, some pos⟩
  | .call name pos :: stack => (flush stack).map (.name name pos :: ·)
  | .operator op pos :: stack => (flush stack).map (.operator op pos :: ·)

/-- Whether the next token opens a parenthesis. -/
def opensParen : List Token → Bool
  | t :: _ => t.isSymbol .parenOpen
  | [] => false

/-- The items that a token sends to the postfix order, and the stack behind it; `rest` are the
tokens that follow. -/
def place (o : Outline) (stack : List Pending) (t : Token) (rest : List Token) :
    Except ParseError (List Item × List Pending) :=
  match t.kind with
  | .literal value => .ok ([.literal value t.pos], stack)
  | .ident name =>
    if opensParen rest && o.contains name then .ok ([], .call name t.pos :: stack)
    else .ok ([.name name t.pos], stack)
  | .symbol .parenOpen => .ok ([], .paren t.pos :: stack)
  | .symbol .comma =>
    match closeOperators stack with
    | some (items, stack) => .ok (items, stack)
    | none => .error ⟨.strayParenClose, some t.pos⟩
  | .symbol .parenClose =>
    match closeOperators stack with
    | some (items, stack) =>
      let (finished, stack) := finishCall stack.tail
      .ok (items ++ finished, stack)
    | none => .error ⟨.strayParenClose, some t.pos⟩
  | .symbol s =>
    match Operator.ofSymbol? s with
    | some op =>
      let (items, stack) := tighter op stack
      .ok (items, .operator op t.pos :: stack)
    | none => .error ⟨.unsupportedSymbol s, some t.pos⟩
  | .type _ | .keyword _ | .eof => .error ⟨.unsupportedToken t, some t.pos⟩

/-- The postfix order of the tokens, starting from the given stack. -/
def postorder (o : Outline) (stack : List Pending) : List Token → Except ParseError (List Item)
  | [] => flush stack
  | t :: ts =>
    match place o stack t ts with
    | .ok (items, stack) => (postorder o stack ts).map (items ++ ·)
    | .error e => .error e

/-- Adds one item to the stack of finished subexpressions, the latest first. -/
def reduce (o : Outline) (stack : List Expr) : Item → Except ParseError (List Expr)
  | .literal value pos => .ok (.literal value (some pos) :: stack)
  | .operator op pos =>
    match stack with
    | rhs :: lhs :: stack => .ok (.binary op lhs rhs (some pos) :: stack)
    | _ => .error ⟨.missingOperand op, some pos⟩
  | .name name pos =>
    match o.get? name with
    | none => .ok (.var name (some pos) :: stack)
    | some entry =>
      if stack.length < entry.arity then
        .error ⟨.tooFewArguments name entry.arity stack.length, some pos⟩
      else
        .ok (.call name (stack.take entry.arity).reverse (some pos) :: stack.drop entry.arity)

/-- The subexpressions that the items build on top of the given ones, the latest first. -/
def build (o : Outline) (stack : List Expr) : List Item → Except ParseError (List Expr)
  | [] => .ok stack
  | item :: items =>
    match reduce o stack item with
    | .ok stack => build o stack items
    | .error e => .error e

/-- The expression that the tokens spell. -/
def parse (o : Outline) (ts : List Token) : Except ParseError Expr :=
  match postorder o [] ts with
  | .error e => .error e
  | .ok items =>
    match build o [] items with
    | .error e => .error e
    | .ok [e] => .ok e
    | .ok stack => .error ⟨.notOneExpression stack.length, ts.head?.map Token.pos⟩

end ProcLang.Expr

import RuleScan.Expr.Fold
import RuleScan.Token.Cursor

/-!
# Reading expressions

Binary operations are read by precedence climbing: from loosest to tightest the
levels are `| || ^`, `& &&`, `== !=`, `< > <= >=`, `<< >>`, `+ -` and `* / %`, and every
operation groups to the left. Tighter than all of them are the signs in front of an
operand and the brackets behind it.

An operand is read by a parser for operands one level further in, so reading ends
because the number of levels is bounded. A second bound limits the nodes of an
expression, and with them the operations on one level and the brackets behind one
operand; constants inside an expression are counted on their own.

## Main results

* `unary_succ` — an operand is read with one level of room less inside.
* `precedence_pos`, `precedence_le` — there are seven levels.
-/

namespace RuleScan

/-- How tightly a binary operation binds; a larger number binds tighter. -/
def BinaryOp.precedence : BinaryOp → Nat
  | .arithmetic .bitOr | .arithmetic .bitXor | .connective .or => 1
  | .arithmetic .bitAnd | .connective .and => 2
  | .comparison .eq | .comparison .ne => 3
  | .comparison _ => 4
  | .arithmetic .shiftLeft | .arithmetic .shiftRight => 5
  | .arithmetic .add | .arithmetic .sub => 6
  | .arithmetic .mul | .arithmetic .div | .arithmetic .rem => 7

theorem BinaryOp.precedence_pos (op : BinaryOp) : 0 < op.precedence := by
  unfold precedence
  split <;> decide

theorem BinaryOp.precedence_le (op : BinaryOp) : op.precedence ≤ 7 := by
  unfold precedence
  split <;> decide

/-- The binary operation that a symbol stands for between two operands. -/
def BinaryOp.ofSymbol? : Symbol → Option BinaryOp
  | .pipe => some (.arithmetic .bitOr)
  | .pipePipe => some (.connective .or)
  | .caret => some (.arithmetic .bitXor)
  | .amp => some (.arithmetic .bitAnd)
  | .ampAmp => some (.connective .and)
  | .eqEq => some (.comparison .eq)
  | .bangEq => some (.comparison .ne)
  | .less => some (.comparison .lt)
  | .greater => some (.comparison .gt)
  | .lessEq => some (.comparison .le)
  | .greaterEq => some (.comparison .ge)
  | .shiftLeft => some (.arithmetic .shiftLeft)
  | .shiftRight => some (.arithmetic .shiftRight)
  | .plus => some (.arithmetic .add)
  | .minus => some (.arithmetic .sub)
  | .star => some (.arithmetic .mul)
  | .slash => some (.arithmetic .div)
  | .percent => some (.arithmetic .rem)
  | _ => none

/-- The binary operation that a token stands for. -/
def BinaryOp.ofKind? : TokenKind → Option BinaryOp
  | .symbol s => BinaryOp.ofSymbol? s
  | _ => none

/-- The unary operation that a token stands for. -/
def UnaryOp.ofKind? : TokenKind → Option UnaryOp
  | .symbol .minus => some .neg
  | .symbol .plus => some .plus
  | .symbol .tilde => some .bitNot
  | .symbol .bang => some .not
  | _ => none

namespace Parser

/-- The deepest nesting of operands. -/
def nestingLimit : Nat := 64

/-- The most nodes that one expression may have. -/
def nodeLimit : Nat := 256

/--
Enough for the operations read on one level: all are counted as nodes except those
whose right operand is still being read, and these bind ever tighter.
-/
def operationBudget : Nat := nodeLimit + 8

/-- Counts one more node. -/
def node : Parser Unit := fun c =>
  if nodeLimit < c.nodes + 1 then .error (errorAt c.peek (.tooManyNodes nodeLimit))
  else .ok ((), { c with nodes := c.nodes + 1 })

/-- Reads something with a node count of its own. -/
def bounded {α : Type} (p : Parser α) : Parser α := fun c =>
  match p { c with nodes := 0 } with
  | .ok (a, c') => .ok (a, { c' with nodes := c.nodes })
  | .error e => .error e

section

variable (operand : Parser Expr)

/--
Extends an expression by the operations that follow it and bind at least as tightly as
a least precedence. The budget bounds the number of operations.
-/
def climb : Nat → Nat → Expr → Parser Expr
  | 0, _, left => pure left
  | budget + 1, least, left => do
    match BinaryOp.ofKind? (← peek).kind with
    | none => pure left
    | some op =>
      if op.precedence < least then pure left
      else
        let _ ← advance
        let first ← operand
        let right ← climb budget (op.precedence + 1) first
        node
        climb budget least (.binary op left right)

/-- Reads operands and the operations between them. -/
def expression : Parser Expr := do
  let first ← operand
  climb operand operationBudget 1 first

/-- Reads an expression that folds to a literal. -/
def constant (what : String) : Parser Value := do
  let start ← peek
  let e ← bounded (expression operand)
  match e.simplify with
  | .error cause => failAt start (.cannotFold cause)
  | .ok (.literal v) => pure v
  | .ok _ => failAt start (.notConstant what)

/-- Reads the brackets behind an operand; the budget bounds their number. -/
def brackets : Nat → Expr → Parser Expr
  | 0, e => pure e
  | budget + 1, e => do
    if ← eat .bracketOpen then
      let start ← expression operand
      if ← eat .colon then
        let stop ← expression operand
        expect .bracketClose
        node
        brackets budget (.slice e start stop)
      else
        expect .bracketClose
        node
        brackets budget (.index e start)
    else pure e

/-- Reads an element of a byte array. -/
def byteElement : Parser UInt8 := do
  let start ← peek
  let v ← constant operand "byte array element"
  match v with
  | .number n =>
    if 0 ≤ n.toInt ∧ n.toInt < 256 then pure (UInt8.ofNat n.toInt.toNat)
    else failAt start .notByte
  | _ => failAt start .notByte

/-- Reads a byte array after its opening brace. -/
def byteArray : Parser Expr := do
  let bytes ← listUntil .braceClose (byteElement operand)
  expect .braceClose
  pure (.literal (.bytes bytes))

/-- Reads an argument of a call, or an entry of its metadata. -/
def callItem : Parser (Expr ⊕ String × Value) := do
  match (← peek).kind, ← peekSecond with
  | .ident key, .symbol .assign =>
    let _ ← advance
    let _ ← advance
    let v ← constant operand "metadata value"
    pure (.inr (key, v))
  | _, _ =>
    let e ← expression operand
    pure (.inl e)

end

/-- The width of the extract with a name. -/
def extractWidth? (name : String) : Option Width :=
  if name = "Byte" then some .w8
  else if name = "Short" then some .w16
  else if name = "Long" then some .w32
  else if name = "Quad" then some .w64
  else none

/-- The format of the extract of a string with a name. -/
def extractFormat? (name : String) : Option ExtractFormat :=
  if name = "String" then some .string
  else if name = "StringZ" then some .stringz
  else none

/-- The extract or call with a name, some arguments and some metadata. -/
def callNode (signatures : String → Option Signature) (name : String) (args : List Expr)
    (metadata : Register) : Except SyntaxProblem Expr :=
  match extractWidth? name, extractFormat? name with
  | some width, _ =>
    match args with
    | [offset] => .ok (.extractNumber offset width metadata)
    | _ => .error (.needsOffset name)
  | none, some format =>
    match args with
    | [offset, size] => .ok (.extract format offset size metadata)
    | _ => .error (.needsOffsetAndLength name)
  | none, none =>
    match signatures name with
    | none => .error (.unknownFunction name)
    | some signature =>
      if signature.accepts args.length then .ok (.call name args metadata)
      else .error (.wrongArity name signature args.length)

section

variable (signatures : String → Option Signature) (operand : Parser Expr)

/-- Reads the arguments and metadata of a call whose name was read. -/
def callTail (name : String) (start : Token) : Parser Expr := do
  expect .parenOpen
  let items ← listUntil .parenClose (callItem operand)
  expect .parenClose
  let args := items.filterMap fun item => item.getLeft?
  let entries := items.filterMap fun item => item.getRight?
  let metadata := entries.foldl (fun m (key, v) => m.set key v) ∅
  match callNode signatures name args metadata with
  | .ok e => pure e
  | .error problem => failAt start problem

/-- Reads an operand without the signs in front of it or the brackets behind it. -/
def primary : Parser Expr := do
  node
  let t ← advance
  match t.kind with
  | .number n => pure (.number n)
  | .string bytes => pure (.literal (.bytes bytes))
  | .char b => pure (.literal (.number (.ofNat b.toNat .w8)))
  | .keyword .trueWord => pure (.literal (.bool true))
  | .keyword .falseWord => pure (.literal (.bool false))
  | .special name => pure (.var name)
  | .ident name => if ← at? .parenOpen then callTail signatures operand name t else pure (.var name)
  | .symbol .parenOpen =>
    let e ← expression operand
    expect .parenClose
    pure e
  | .symbol .braceOpen => byteArray operand
  | _ => failAt t (.expected "an expression")

/-- Reads an operand, given the parser for the operands inside it. -/
def operandAround : Parser Expr := do
  match UnaryOp.ofKind? (← peek).kind with
  | some op =>
    let _ ← advance
    let e ← operand
    node
    pure (.unary op e)
  | none =>
    let e ← primary signatures operand
    brackets operand operationBudget e

end

/-- Reads an operand with so many levels of room for the operands inside it. -/
def unary (signatures : String → Option Signature) : Nat → Parser Expr
  | 0 => fail .nestedTooDeeply
  | room + 1 => operandAround signatures (unary signatures room)

theorem unary_succ (signatures : String → Option Signature) (room : Nat) :
    unary signatures (room + 1) = operandAround signatures (unary signatures room) := rfl

/-- Reads the expression of a statement. -/
def boundedExpression (signatures : String → Option Signature) : Parser Expr :=
  bounded (expression (unary signatures nestingLimit))

/-- Reads a constant outside any expression. -/
def outerConstant (signatures : String → Option Signature) (what : String) : Parser Value :=
  constant (unary signatures nestingLimit) what

end Parser

end RuleScan

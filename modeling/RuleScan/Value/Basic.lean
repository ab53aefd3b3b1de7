import RuleScan.Text.Utf8
import RuleScan.Text.Digits
import RuleScan.Value.Number
import RuleScan.Value.Operation

/-!
# Values

A value is a sized number, a truth value or a byte string. An operation that a pair
of kinds does not support is a kind fault, a position that does not exist is a range
fault, and division by zero is a fault of its own; faults carry what a message says.

## Main results

* `binary_connective` — a connective of two truth values is their truth table.
* `unary_plus`, `unary_not` — what the unary operations do to numbers and truth values.
-/

namespace RuleScan

/-- The kinds of values, and the kind of parameter that takes any of them. -/
inductive Kind where
  | number
  | bool
  | bytes
  | any
  deriving DecidableEq, Repr

/-- The name of a kind in messages. -/
def Kind.name : Kind → String
  | .number => "number"
  | .bool => "boolean"
  | .bytes => "string"
  | .any => "any"

/-- Whether a value of the second kind may stand where the first is wanted. -/
def Kind.accepts (wanted found : Kind) : Bool := wanted == .any || wanted == found

/-- A position or length that does not exist. -/
inductive RangeFault where
  | negativeOffset (value : Int)
  | indexPast (index length : Nat)
  | badSlice (start stop length : Nat)
  | readPast (length offset size : Nat)
  | offsetPast (offset size : Nat)
  | badPiece (start stop size : Nat)
  | other (details : String)
  deriving DecidableEq, Repr

/-- A kind of value that does not fit. -/
inductive KindFault where
  | expected (wanted found : Kind)
  | noTruthValue
  | binary (op : BinaryOp) (left right : Kind)
  | unary (op : UnaryOp) (operand : Kind)
  | argument (name : String) (position : Nat) (wanted found : Kind)
  | other (details : String)
  deriving DecidableEq, Repr

/-- Why an operation on values failed. -/
inductive ValueError where
  | divisionByZero
  | outOfRange (fault : RangeFault)
  | typeMismatch (fault : KindFault)
  deriving DecidableEq, Repr

/-- The wording of a range fault. -/
def RangeFault.message : RangeFault → String
  | .negativeOffset value => s!"negative offset {value}"
  | .indexPast index length => s!"index {index} out of range for length {length}"
  | .badSlice start stop length => s!"slice [{start}:{stop}] out of range for length {length}"
  | .readPast length offset size =>
    s!"read of {length} bytes at offset {offset} past end of data ({size} bytes)"
  | .offsetPast offset size => s!"offset {offset} past end of data ({size} bytes)"
  | .badPiece start stop size => s!"cannot carve [{start}:{stop}] from {size} bytes"
  | .other details => details

/-- The wording of a kind fault. -/
def KindFault.message : KindFault → String
  | .expected wanted found => s!"expected {wanted.name}, found {found.name}"
  | .noTruthValue => "a string has no truth value"
  | .binary op left right => s!"cannot apply '{op.spelling}' to {left.name} and {right.name}"
  | .unary op operand => s!"cannot apply '{op.spelling}' to {operand.name}"
  | .argument name position wanted found =>
    s!"{name}: argument {position} expects {wanted.name}, found {found.name}"
  | .other details => details

/-- The wording of a failed operation. -/
def ValueError.message : ValueError → String
  | .divisionByZero => "division by zero"
  | .outOfRange fault => "out of range: " ++ fault.message
  | .typeMismatch fault => "type mismatch: " ++ fault.message

/-- A value of the rule language. -/
inductive Value where
  | number (n : Number)
  | bool (b : Bool)
  | bytes (b : Bytes)
  deriving DecidableEq

namespace Value

/-- The byte string of a text. -/
def text (s : String) : Value := .bytes (Utf8.encode s)

/-- The kind of a value. -/
def kind : Value → Kind
  | number _ => .number
  | bool _ => .bool
  | bytes _ => .bytes

/-- The number that a value must be. -/
def asNumber : Value → Except ValueError Number
  | number n => .ok n
  | v => .error (.typeMismatch (.expected .number v.kind))

/-- The byte string that a value must be. -/
def asBytes : Value → Except ValueError Bytes
  | bytes b => .ok b
  | v => .error (.typeMismatch (.expected .bytes v.kind))

/-- The truth value that a value must be. -/
def asBool : Value → Except ValueError Bool
  | bool b => .ok b
  | v => .error (.typeMismatch (.expected .bool v.kind))

/-- The position or length that a value must be: a number that is not negative. -/
def asOffset (v : Value) : Except ValueError Nat := do
  let n ← v.asNumber
  if 0 ≤ n.toInt then .ok n.toInt.toNat
  else .error (.outOfRange (.negativeOffset n.toInt))

/-- The truth value of a value; a number is true unless it is zero. -/
def truthy : Value → Except ValueError Bool
  | bool b => .ok b
  | number n => .ok (!n.isZero)
  | bytes _ => .error (.typeMismatch .noTruthValue)

/-! ## Operations -/

/-- Arithmetic on two numbers, in the width and sign of the first. -/
def arithmetic (op : Arithmetic) (a b : Number) : Except ValueError Number :=
  match op with
  | .add => .ok (a.withWord (a.word + b.word))
  | .sub => .ok (a.withWord (a.word - b.word))
  | .mul => .ok (a.withWord (a.word * b.word))
  | .div => (a.divide b).elim (.error .divisionByZero) .ok
  | .rem => (a.remainder b).elim (.error .divisionByZero) .ok
  | .bitAnd => .ok (a.withWord (a.word &&& b.word))
  | .bitOr => .ok (a.withWord (a.word ||| b.word))
  | .bitXor => .ok (a.withWord (a.word ^^^ b.word))
  | .shiftLeft => .ok (a.shiftLeft b)
  | .shiftRight => .ok (a.shiftRight b)

/-- Whether two things are equal, or differ, as a comparison for equality demands. -/
def equality? {α : Type} [DecidableEq α] (op : Comparison) (a b : α) : Option Bool :=
  match op with
  | .eq => some (a == b)
  | .ne => some (a != b)
  | _ => none

/-- The fault of a pair of operands that an operation does not support. -/
def unsupported (op : BinaryOp) (a b : Value) : ValueError :=
  .typeMismatch (.binary op a.kind b.kind)

/-- Applies a binary operation to two values; a connective sees both of them. -/
def binary (op : BinaryOp) (a b : Value) : Except ValueError Value :=
  match op with
  | .connective c => do
    let p ← a.truthy
    let q ← b.truthy
    pure (.bool (c.apply p q))
  | .comparison c =>
    match a, b with
    | .number m, .number n => .ok (.bool (c.holds (compare m.toInt n.toInt)))
    | .bool p, .bool q => ((equality? c p q).map bool).elim (.error (unsupported op a b)) .ok
    | .bytes s, .bytes t => ((equality? c s t).map bool).elim (.error (unsupported op a b)) .ok
    | _, _ => .error (unsupported op a b)
  | .arithmetic o =>
    match a, b with
    | .number m, .number n => (arithmetic o m n).map number
    | .bytes s, .bytes t =>
      if o = .add then .ok (.bytes (s ++ t)) else .error (unsupported op a b)
    | _, _ => .error (unsupported op a b)

/-- Applies a unary operation to a value. -/
def unary (op : UnaryOp) (v : Value) : Except ValueError Value :=
  match op, v with
  | .plus, .number n => .ok (.number n)
  | .neg, .number n => .ok (.number (n.withWord (-n.word)))
  | .bitNot, .number n => .ok (.number (n.withWord (~~~n.word)))
  | .not, .number n => .ok (.bool n.isZero)
  | .not, .bool b => .ok (.bool !b)
  | _, _ => .error (.typeMismatch (.unary op v.kind))

/-- The byte at a position, as a one-byte number. -/
def index (subject start : Value) : Except ValueError Value := do
  let bytes ← subject.asBytes
  let first ← start.asOffset
  match bytes[first]? with
  | some b => pure (.number (.ofNat b.toNat .w8))
  | none => .error (.outOfRange (.indexPast first bytes.length))

/-- The bytes from one position up to another; the range must not be empty. -/
def slice (subject start stop : Value) : Except ValueError Value := do
  let bytes ← subject.asBytes
  let first ← start.asOffset
  let last ← stop.asOffset
  if first < last ∧ last ≤ bytes.length then
    pure (.bytes ((bytes.drop first).take (last - first)))
  else .error (.outOfRange (.badSlice first last bytes.length))

@[simp] theorem binary_connective (c : Connective) (p q : Bool) :
    binary (.connective c) (bool p) (bool q) = .ok (bool (c.apply p q)) := rfl

@[simp] theorem unary_plus (n : Number) : unary .plus (number n) = .ok (number n) := rfl

@[simp] theorem unary_not (b : Bool) : unary .not (bool b) = .ok (bool !b) := rfl

/-! ## Printing -/

/-- The spelling of a byte inside quotes. -/
def quoteByte (b : UInt8) : List Char :=
  if b = 34 then ['\\', '"']
  else if b = 92 then ['\\', '\\']
  else if b = 10 then ['\\', 'n']
  else if b = 9 then ['\\', 't']
  else if b = 13 then ['\\', 'r']
  else if 0x20 ≤ b ∧ b ≤ 0x7e then [Char.ofNat b.toNat]
  else ['\\', 'x'] ++ Text.hexByte b

/-- A byte string in quotes, in printable ASCII. -/
def quote (bytes : Bytes) : String :=
  String.ofList ('"' :: bytes.flatMap quoteByte ++ ['"'])

/-- The text of a value in reports and expressions. -/
def print : Value → String
  | number n => toString n.toInt
  | bool b => if b then "true" else "false"
  | bytes b => quote b

/-- The text of a value in messages, where byte strings stand without quotes. -/
def printPlain : Value → String
  | bytes b => Utf8.lossy b
  | v => v.print

end Value

end RuleScan

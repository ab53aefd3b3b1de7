/-!
# Operations of the rule language

The binary operations fall into three families that treat their operands
differently: arithmetic computes, comparison decides an order, and the two
connectives look at truth values only. Each operation has one spelling, which is
used both in rule sources and in messages.
-/

namespace RuleScan

/-- Operations that compute a value of the left operand's kind. -/
inductive Arithmetic where
  | add
  | sub
  | mul
  | div
  | rem
  | bitAnd
  | bitOr
  | bitXor
  | shiftLeft
  | shiftRight
  deriving DecidableEq, Repr

/-- Operations that compare two values. -/
inductive Comparison where
  | eq
  | ne
  | lt
  | gt
  | le
  | ge
  deriving DecidableEq, Repr

/-- Operations on truth values; evaluation may leave the right operand alone. -/
inductive Connective where
  | and
  | or
  deriving DecidableEq, Repr

/-- A binary operation. -/
inductive BinaryOp where
  | arithmetic (op : Arithmetic)
  | comparison (op : Comparison)
  | connective (op : Connective)
  deriving DecidableEq, Repr

/-- A unary operation. -/
inductive UnaryOp where
  | neg
  | plus
  | bitNot
  | not
  deriving DecidableEq, Repr

/-- The spelling of an arithmetic operation. -/
def Arithmetic.spelling : Arithmetic → String
  | .add => "+"
  | .sub => "-"
  | .mul => "*"
  | .div => "/"
  | .rem => "%"
  | .bitAnd => "&"
  | .bitOr => "|"
  | .bitXor => "^"
  | .shiftLeft => "<<"
  | .shiftRight => ">>"

/-- The spelling of a comparison. -/
def Comparison.spelling : Comparison → String
  | .eq => "=="
  | .ne => "!="
  | .lt => "<"
  | .gt => ">"
  | .le => "<="
  | .ge => ">="

/-- The spelling of a connective. -/
def Connective.spelling : Connective → String
  | .and => "&&"
  | .or => "||"

/-- The spelling of a binary operation. -/
def BinaryOp.spelling : BinaryOp → String
  | .arithmetic op => op.spelling
  | .comparison op => op.spelling
  | .connective op => op.spelling

/-- The spelling of a unary operation. -/
def UnaryOp.spelling : UnaryOp → String
  | .neg => "-"
  | .plus => "+"
  | .bitNot => "~"
  | .not => "!"

/-- Whether an ordering satisfies a comparison. -/
def Comparison.holds : Comparison → Ordering → Bool
  | .eq, o => o == .eq
  | .ne, o => o != .eq
  | .lt, o => o == .lt
  | .gt, o => o == .gt
  | .le, o => o != .gt
  | .ge, o => o != .lt

/-- The truth value that settles a connective on its own: false for `&&`, true for `||`. -/
def Connective.decisive : Connective → Bool
  | .and => false
  | .or => true

/-- The truth value of a connective. -/
def Connective.apply : Connective → Bool → Bool → Bool
  | .and, a, b => a && b
  | .or, a, b => a || b

theorem Connective.apply_decisive (op : Connective) (b : Bool) :
    op.apply op.decisive b = op.decisive := by
  cases op <;> rfl

theorem Connective.apply_of_ne_decisive {op : Connective} {a : Bool} (h : a ≠ op.decisive)
    (b : Bool) : op.apply a b = b := by
  cases op <;> cases a <;> simp_all [Connective.decisive, Connective.apply]

end RuleScan

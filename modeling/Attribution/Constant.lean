/-!
# Constants

Compile-time values and the folding of operators over them. Integers are
64-bit words: sums, differences, products and negations wrap, quotients
truncate toward zero, and a zero divisor is not constant.
-/

namespace Attribution

inductive UnaryOp where
  | not
  | neg
  deriving DecidableEq, Repr

inductive BinaryOp where
  | and
  | or
  | eq
  | lt
  | add
  | sub
  | mul
  | div
  deriving DecidableEq, Repr

inductive Const where
  | bool (b : Bool)
  | int (i : Int64)
  deriving DecidableEq

namespace Const

def text : Const → String
  | .bool true => "true"
  | .bool false => "false"
  | .int i => toString i.toInt

end Const

/-- The value of the operator, when its operand has the right type. -/
def UnaryOp.fold? : UnaryOp → Const → Option Const
  | .not, .bool b => some (.bool !b)
  | .neg, .int i => some (.int (-i))
  | _, _ => none

/-- The value of the operator, when its operands have the right types and no
divisor is zero. -/
def BinaryOp.fold? : BinaryOp → Const → Const → Option Const
  | .and, .bool a, .bool b => some (.bool (a && b))
  | .or, .bool a, .bool b => some (.bool (a || b))
  | .eq, .bool a, .bool b => some (.bool (a == b))
  | .eq, .int a, .int b => some (.bool (a == b))
  | .lt, .int a, .int b => some (.bool (decide (a < b)))
  | .add, .int a, .int b => some (.int (a + b))
  | .sub, .int a, .int b => some (.int (a - b))
  | .mul, .int a, .int b => some (.int (a * b))
  | .div, .int a, .int b => if b = 0 then none else some (.int (a / b))
  | _, _, _ => none

end Attribution

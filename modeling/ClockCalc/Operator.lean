/-! The operators of expressions and their symbols. -/

namespace ClockCalc

inductive BinaryOp where
  | add | sub | mul | div | pow
  deriving DecidableEq

/-- The signs that may stand before an operand. -/
inductive UnaryOp where
  | plus | minus
  deriving DecidableEq

namespace BinaryOp

def symbol : BinaryOp → String
  | add => "+"
  | sub => "-"
  | mul => "*"
  | div => "/"
  | pow => "^"

/-- The sign with the same symbol, for the two operators that have one. -/
def sign? : BinaryOp → Option UnaryOp
  | add => some .plus
  | sub => some .minus
  | _ => none

end BinaryOp

namespace UnaryOp

def symbol : UnaryOp → String
  | plus => "+"
  | minus => "-"

end UnaryOp

end ClockCalc

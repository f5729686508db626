import ClockCalc.Operator

/-! The kinds of values, and which operations between them have a meaning. -/

namespace ClockCalc

/-- A value is a plain number or a span of time. -/
inductive Kind where
  | number | time
  deriving DecidableEq

namespace Kind

def name : Kind → String
  | number => "number"
  | time => "time"

/-- The kind of a result, where the operation has one. Numbers combine freely; spans of time
add up, and are scaled and divided by numbers. -/
def combine? : BinaryOp → Kind → Kind → Option Kind
  | _, number, number => some number
  | .add, time, time => some time
  | .sub, time, time => some time
  | .mul, time, number => some time
  | .mul, number, time => some time
  | .div, time, number => some time
  | _, _, _ => none

/-- A sign keeps the kind. -/
def signed (_ : UnaryOp) (kind : Kind) : Kind := kind

end Kind

end ClockCalc

import ClockCalc.Binary64.Whole
import ClockCalc.Duration
import ClockCalc.Kind
import ClockCalc.Number

/-! The values of expressions, their arithmetic and their text. -/

namespace ClockCalc

inductive Value where
  | number (n : Number)
  | time (d : Duration)
  deriving DecidableEq

namespace Duration

/-- An integer factor is exact. With a double the product is one of doubles, its fraction
dropped. -/
def scale? (d : Duration) : Number → Option Duration
  | .integer k => (d.seconds.mul? k).map mk
  | .real x => (Binary64.ofInt d.seconds.val * x).toWord?.map mk

/-- The quotient with the fraction of a second dropped. -/
def divide (d : Duration) (divisor : Number) : Except ArithmeticFault Duration :=
  if divisor.isZero then .error .divisionByZero
  else
    let quotient := match divisor with
      | .integer k => d.seconds.tdiv? k
      | .real x => (Binary64.ofInt d.seconds.val / x).toWord?
    (quotient.map mk).elim (.error .outOfRange) .ok

end Duration

namespace Value

/-- Why an operation on two values has no result. -/
inductive Fault where
  | arithmetic (fault : ArithmeticFault)
  /-- The operation has no meaning for values of these kinds. -/
  | unsupported (left : Value) (op : BinaryOp) (right : Value)
  deriving DecidableEq

def kind : Value → Kind
  | number _ => .number
  | time _ => .time

def inRange : Option Duration → Except ArithmeticFault Value
  | some d => .ok (time d)
  | none => .error .outOfRange

/-- The operations with a span of time on either side; `none` for a pair without a meaning. -/
def applyTime? (op : BinaryOp) (left right : Value) : Option (Except ArithmeticFault Value) :=
  match op, left, right with
  | .add, time a, time b => some (inRange (a.add? b))
  | .sub, time a, time b => some (inRange (a.sub? b))
  | .mul, time d, number n => some (inRange (d.scale? n))
  | .mul, number n, time d => some (inRange (d.scale? n))
  | .div, time d, number n => some ((d.divide n).map time)
  | _, _, _ => none

def apply (op : BinaryOp) (left right : Value) : Except Fault Value :=
  match left, right with
  | number a, number b => ((Number.apply op a b).map number).mapError .arithmetic
  | _, _ =>
    match applyTime? op left right with
    | some result => result.mapError .arithmetic
    | none => .error (.unsupported left op right)

def applySign (op : UnaryOp) (v : Value) : Except ArithmeticFault Value :=
  match op, v with
  | .plus, v => .ok v
  | .minus, number n => .ok (number n.negate)
  | .minus, time d => inRange d.neg?

def text : Value → String
  | number n => n.text
  | time d => d.text

def fullText (trimmed : Bool) : Value → String
  | number n => n.fullText trimmed
  | time d => d.text

/-- Text with a colon is a span of time, any other a number. -/
def read? (cs : List Char) : Option Value :=
  if ':' ∈ cs then (Duration.read? cs).map time else (Number.read? cs).map number

end Value

end ClockCalc

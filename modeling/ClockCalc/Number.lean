import ClockCalc.Binary64.Arith
import ClockCalc.Binary64.Text
import ClockCalc.Operator

/-! Plain numbers: exact integers while they last, doubles otherwise. -/

namespace ClockCalc

inductive Number where
  | integer (n : Word)
  | real (x : Binary64)
  deriving DecidableEq

/-- Why an arithmetic operation has no result. -/
inductive ArithmeticFault where
  | divisionByZero
  /-- A span of time outside the 64-bit range of seconds. -/
  | outOfRange
  /-- A number that would be infinite or NaN. -/
  | undefined
  deriving DecidableEq

namespace Number

def toBinary64 : Number → Binary64
  | integer n => .ofInt n.val
  | real x => x

def isZero : Number → Bool
  | integer n => n.val == 0
  | real x => x.isZero

/-- Only finite doubles become numbers. -/
def ofFinite (x : Binary64) : Except ArithmeticFault Number :=
  if x.isFinite then .ok (.real x) else .error .undefined

/-- Two integers are combined exactly where that stays in range. All else is done in doubles. -/
def combine (exact : Word → Word → Option Word) (rounded : Binary64 → Binary64 → Binary64) :
    Number → Number → Except ArithmeticFault Number
  | integer a, integer b =>
    match exact a b with
    | some n => .ok (.integer n)
    | none => ofFinite (rounded (.ofInt a.val) (.ofInt b.val))
  | a, b => ofFinite (rounded a.toBinary64 b.toBinary64)

/-- The exponents of exact powers have at most 32 bits. -/
def exponent? (n : Word) : Option Nat :=
  if 0 ≤ n.val ∧ n.val < 0x100000000 then some n.val.toNat else none

def exactPow? (base exponent : Word) : Option Word := (exponent? exponent).bind base.pow?

/-- A quotient is always a double, even of two integers. -/
def apply (op : BinaryOp) (a b : Number) : Except ArithmeticFault Number :=
  match op with
  | .add => combine Word.add? Binary64.add a b
  | .sub => combine Word.sub? Binary64.sub a b
  | .mul => combine Word.mul? Binary64.mul a b
  | .div => if b.isZero then .error .divisionByZero else ofFinite (a.toBinary64 / b.toBinary64)
  | .pow => combine exactPow? Binary64.pow a b

/-- Doubles are subtracted from zero, so that the negative of zero is zero. -/
def negate : Number → Number
  | integer n =>
    match n.neg? with
    | some m => .integer m
    | none => .real (-Binary64.ofInt n.val)
  | real x => .real (Binary64.zero false - x)

/-- A point makes a double. Without one the text is an integer where it fits. -/
def read? (cs : List Char) : Option Number :=
  if '.' ∈ cs then (Binary64.read? cs).map real
  else match Numeral.readWord? cs with
    | some n => some (integer n)
    | none => (Binary64.read? cs).map real

end Number

namespace Binary64

/-- A whole double with all its digits; both zeros are `0`. -/
def wholeText (x : Binary64) : String := (x + zero false).fixed 0

/-- Trailing zeros dropped, but for one that follows the point. -/
def trimZeros (cs : List Char) : List Char :=
  let kept := (cs.reverse.dropWhile (· = '0')).reverse
  if kept.getLast? = some '.' then kept ++ ['0'] else kept

/-- What a reader is shown: a whole value without a point, any other rounded to two places. -/
def shownText (x : Binary64) : String :=
  if x.isWhole then x.wholeText else String.ofList (trimZeros (x.fixed 2).toList)

end Binary64

namespace Number

def text : Number → String
  | integer n => Numeral.intText n.val
  | real x => x.shownText

/-- The text that keeps every digit. A whole double ends in `.0` unless it is `trimmed`. -/
def fullText (trimmed : Bool) : Number → String
  | integer n => Numeral.intText n.val
  | real x =>
    if x.isWhole then
      if trimmed then x.wholeText else x.fixed 1
    else x.plain

end Number

end ClockCalc

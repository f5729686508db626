import ClockCalc.Token
import ClockCalc.Value

/-! Everything that can go wrong with an expression, and the wording of it. Positions count the
UTF-8 bytes before the place in the text. -/

namespace ClockCalc

/-- A character with which no token begins. -/
structure Unreadable where
  fragment : Char
  position : Nat
  deriving DecidableEq

/-- A text made of tokens that is not an expression, or one whose kinds do not fit. -/
inductive GrammarFault where
  | unexpected (token : String) (position : Nat)
  | endOfInput
  | incompatible (op : BinaryOp) (left right : Kind) (position : Nat)
  | tooDeep (position : Nat)
  | tooLarge (literal : String) (position : Nat)
  deriving DecidableEq

/-- A value that could not be computed. The position is that of the operator, where the text is
still at hand. -/
inductive RunFault where
  | arithmetic (cause : ArithmeticFault) (position : Option Nat)
  | unsupported (left : Value) (op : BinaryOp) (right : Value)
  /-- An operand of a listing that is no value. -/
  | malformed (operand : String)
  /-- An operator, by its mark, or the end of the listing found too few values. -/
  | missingOperand (mark : String)
  /-- The listing ended with this many values. -/
  | leftover (count : Nat)
  deriving DecidableEq

inductive Error where
  | unreadable (cause : Unreadable)
  | grammar (fault : GrammarFault)
  | run (fault : RunFault)
  /-- The value is of another kind than the one asked for. -/
  | wrongKind (wanted found : Kind)
  deriving DecidableEq

def Unreadable.message (e : Unreadable) : String :=
  "Unrecognized character '" ++ String.singleton e.fragment ++ "' near index " ++
    Numeral.natText e.position

namespace GrammarFault

/-- What is wrong with two operands that do not combine. -/
def mismatch : BinaryOp → Kind → Kind → String
  | .add, .time, .number => "Number being added to time"
  | .add, .number, .time => "Time being added to number"
  | .sub, .time, .number => "Number being subtracted from time"
  | .sub, .number, .time => "Time being subtracted from number"
  | .mul, .time, .time => "Time being multiplied by time"
  | .div, _, .time => "Time used as divisor"
  | .pow, _, _ => "Operation ^ used with time"
  | op, left, right =>
    "Operation " ++ op.symbol ++ " cannot combine " ++ left.name ++ " and " ++ right.name

def message : GrammarFault → String
  | unexpected _ position =>
    "Operation absent or used incorrectly near index " ++ Numeral.natText position
  | endOfInput => "Operation absent or used incorrectly near the end of input"
  | incompatible op left right position =>
    mismatch op left right ++ " near index " ++ Numeral.natText position
  | tooDeep position => "Expression nested too deeply near index " ++ Numeral.natText position
  | tooLarge literal position =>
    "Literal " ++ literal ++ " is too large near index " ++ Numeral.natText position

end GrammarFault

def ArithmeticFault.message : ArithmeticFault → String
  | divisionByZero => "Division by zero"
  | outOfRange => "Time value out of range"
  | undefined => "Result is not a finite number"

namespace RunFault

def message : RunFault → String
  | arithmetic cause position =>
    cause.message ++ position.elim "" fun p => " near index " ++ Numeral.natText p
  | unsupported left op right =>
    "Operation " ++ left.text ++ " " ++ op.symbol ++ " " ++ right.text ++ " is not supported"
  | malformed operand => "Stack entry '" ++ operand ++ "' is neither a number nor a time"
  | missingOperand mark => "Operation " ++ mark ++ " is missing an operand"
  | leftover count => "Input ended with " ++ Numeral.natText count ++ " values on the stack"

end RunFault

/-- The fault of an operation on values, found at a place in the text or at none. -/
def Value.Fault.located (position : Option Nat) : Value.Fault → RunFault
  | arithmetic cause => .arithmetic cause position
  | unsupported left op right => .unsupported left op right

def Error.message : Error → String
  | unreadable cause => cause.message
  | grammar fault => fault.message
  | run fault => fault.message
  | wrongKind .time _ => "Result is not time (use 'calc' instead)"
  | wrongKind .number _ => "Result is time (use 'calct' instead)"

def Kind.check (op : BinaryOp) (left right : Kind) (position : Nat) : Except GrammarFault Kind :=
  match Kind.combine? op left right with
  | some kind => .ok kind
  | none => .error (.incompatible op left right position)

/-- An answer must be of the kind that was asked for, if one was. -/
def Kind.expect (wanted : Option Kind) (found : Kind) : Except Error Unit :=
  match wanted with
  | none => .ok ()
  | some kind => if kind = found then .ok () else .error (.wrongKind kind found)

end ClockCalc

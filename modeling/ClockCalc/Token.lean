import ClockCalc.Operator

/-! The tokens of expressions. -/

namespace ClockCalc

/-- The written forms of literals. -/
inductive LiteralForm where
  /-- Digits alone. -/
  | integer
  /-- Digits, a point and digits. -/
  | decimal
  /-- Two or three runs of digits between colons. -/
  | time
  deriving DecidableEq

namespace Token

inductive Kind where
  | literal (form : LiteralForm)
  | operator (op : BinaryOp)
  | openGroup
  | closeGroup
  /-- Space between tokens. No place in an expression allows such a token. -/
  | blank
  deriving DecidableEq

end Token

/-- A piece of an expression's text. The position counts the UTF-8 bytes before it. -/
structure Token where
  kind : Token.Kind
  lexeme : String
  position : Nat
  deriving DecidableEq

namespace Token

def isLiteral (t : Token) : Bool :=
  match t.kind with
  | .literal _ => true
  | _ => false

/-- The operator between two operands that the token stands for. -/
def binaryOp? (t : Token) : Option BinaryOp :=
  match t.kind with
  | .operator op => some op
  | _ => none

end Token

end ClockCalc

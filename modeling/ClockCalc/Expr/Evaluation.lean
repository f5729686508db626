import ClockCalc.Expr.Reducer
import ClockCalc.Token.Scan
import ClockCalc.Value.Literal

/-! Computing expressions while they are read. -/

namespace ClockCalc

namespace Value

/-- Kinds are checked before anything is computed. -/
def reducer : Reducer Value where
  literal t := (ofLiteral t).mapError .grammar
  signed op v position := (v.applySign op).mapError fun cause => .run (.arithmetic cause position)
  binary op left right position := do
    let _ ← (Kind.check op left.kind right.kind position).mapError Error.grammar
    (apply op left right).mapError fun fault => .run (fault.located (some position))

def ofTokens (wanted : Option Kind) (ts : List Token) : Except Error Value := do
  let v ← reducer.read ts
  Kind.expect wanted v.kind
  return v

def ofText (wanted : Option Kind) (text : String) : Except Error Value := do
  ofTokens wanted (← (Token.ofText text).mapError .unreadable)

end Value

/-- The answer to an expression, as it is shown. -/
def answer (wanted : Option Kind) (text : String) : Except Error String :=
  (Value.ofText wanted text).map Value.text

end ClockCalc

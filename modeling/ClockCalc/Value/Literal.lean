import ClockCalc.Error

/-! The values of literal tokens. The form of the token decides how its text is read. -/

namespace ClockCalc.Value

def readForm? (form : LiteralForm) (cs : List Char) : Option Value :=
  match form with
  | .integer => (Numeral.readWord? cs).map fun n => number (.integer n)
  | .decimal => ((Binary64.read? cs).filter (·.isFinite)).map fun x => number (.real x)
  | .time => (Duration.read? cs).map time

def ofLiteral (t : Token) : Except GrammarFault Value :=
  match t.kind with
  | .literal form =>
    match readForm? form t.lexeme.toList with
    | some v => .ok v
    | none => .error (.tooLarge t.lexeme t.position)
  | _ => .error (.unexpected t.lexeme t.position)

end ClockCalc.Value

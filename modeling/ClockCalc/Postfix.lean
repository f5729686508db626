import ClockCalc.Expr.Evaluation

/-! Expressions as postfix listings: operands and operators in the order in which they are
computed. -/

namespace ClockCalc

/-- An operator in a listing. A sign and the operator between operands have different marks,
for a listing does not show what stands where. -/
inductive Mark where
  | sign (op : UnaryOp)
  | binary (op : BinaryOp)
  deriving DecidableEq

def Mark.text : Mark → String
  | sign .plus => "+₁"
  | sign .minus => "-₁"
  | binary .add => "+₂"
  | binary .sub => "-₂"
  | binary op => op.symbol

namespace Postfix

inductive Item where
  /-- A literal as it was written. -/
  | operand (text : String)
  | mark (mark : Mark)
  deriving DecidableEq

def Item.text : Item → String
  | operand text => text
  | mark m => m.text

end Postfix

/-- A listing and the kind of its value. -/
structure Postfix where
  items : List Postfix.Item
  kind : Kind
  deriving DecidableEq

namespace Postfix

/-- The same checks as in a computation, on kinds alone. -/
def reducer : Reducer Postfix where
  literal t := do
    let v ← (Value.ofLiteral t).mapError Error.grammar
    return ⟨[.operand t.lexeme], v.kind⟩
  signed op p _ := .ok ⟨p.items ++ [.mark (.sign op)], p.kind.signed op⟩
  binary op left right position := do
    let kind ← (Kind.check op left.kind right.kind position).mapError Error.grammar
    return ⟨left.items ++ right.items ++ [.mark (.binary op)], kind⟩

def ofTokens (wanted : Option Kind) (ts : List Token) : Except Error Postfix := do
  let p ← reducer.read ts
  Kind.expect wanted p.kind
  return p

def ofText (wanted : Option Kind) (text : String) : Except Error Postfix := do
  ofTokens wanted (← (Token.ofText text).mapError .unreadable)

end Postfix

end ClockCalc

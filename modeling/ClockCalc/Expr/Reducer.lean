import ClockCalc.Error

/-! Reading expressions. A reader is given what to make of a literal, of a signed operand and of
two operands with an operator between them; it meets the literals in order and applies each
operator once its operands are complete. What is still open is kept on a stack, so every token
is looked at once.

`^` binds tightest and groups to the right, signs come next, then `*` and `/`, then `+` and `-`,
which group to the left. The operand after `^` may carry a sign. -/

namespace ClockCalc

/-- What an expression is turned into, one operation at a time. The first failure ends it. -/
structure Reducer (α : Type) where
  literal : Token → Except Error α
  signed : UnaryOp → α → Nat → Except Error α
  binary : BinaryOp → α → α → Nat → Except Error α

/-- Something that waits for the operand being read. -/
inductive Frame (α : Type) where
  | sign (op : UnaryOp) (position : Nat)
  | group
  | binary (left : α) (op : BinaryOp) (position : Nat)

/-- How tightly an operator holds the operands beside it. -/
def BinaryOp.grip : BinaryOp → Nat
  | add | sub => 1
  | mul | div => 2
  | pow => 3

namespace Frame

/-- A sign holds its operand as tightly as `^` holds its right one; a group is never closed by
an operator. -/
def grip {α : Type} : Frame α → Nat
  | sign .. => 3
  | group => 0
  | binary _ op _ => op.grip

/-- Groups, signs and exponents nest; the left operands of the other operators do not. -/
def nests {α : Type} : Frame α → Bool
  | sign .. => true
  | group => true
  | binary _ op _ => op = .pow

end Frame

/-- The least grip of the frames that an operator completes when it follows an operand. Those of
its own rank are among them, except that `^` completes none. -/
def BinaryOp.completes : BinaryOp → Nat
  | add | sub => 1
  | mul | div => 2
  | pow => 4

namespace Reducer

variable {α : Type} (R : Reducer α)

/-- Expressions may nest this deep. -/
def maxNesting : Nat := 128

def depth (stack : List (Frame α)) : Nat := stack.countP Frame.nests

/-- Gives a completed operand to the frame that waits for it. -/
def close (v : α) : Frame α → Except Error α
  | .sign op position => R.signed op v position
  | .group => .ok v
  | .binary left op position => R.binary op left v position

/-- Closes the frames on top that hold the operand at least this tightly. -/
def settle (least : Nat) : List (Frame α) → α → Except Error (List (Frame α) × α)
  | [], v => .ok ([], v)
  | frame :: stack, v =>
    if frame.grip < least then .ok (frame :: stack, v)
    else do settle least stack (← R.close v frame)

/-- Reads on with what is open, and with the operand just completed if there is one. Ends where
nothing is open and the next token cannot go on. -/
def readFrom (base : Nat) (stack : List (Frame α)) :
    Option α → List Token → Except Error (α × List Token)
  | none, [] => .error (.grammar .endOfInput)
  | none, t :: ts =>
    if maxNesting < base + depth stack then .error (.grammar (.tooDeep t.position))
    else match t.kind with
      | .literal _ => do readFrom base stack (some (← R.literal t)) ts
      | .openGroup => readFrom base (.group :: stack) none ts
      | .operator op =>
        match op.sign? with
        | some sign => readFrom base (.sign sign t.position :: stack) none ts
        | none => .error (.grammar (.unexpected t.lexeme t.position))
      | _ => .error (.grammar (.unexpected t.lexeme t.position))
  | some v, [] => do
    match ← R.settle 1 stack v with
    | ([], v) => .ok (v, [])
    | (_ :: _, _) => .error (.grammar .endOfInput)
  | some v, t :: ts =>
    match t.binaryOp? with
    | some op => do
      let (stack, left) ← R.settle op.completes stack v
      readFrom base (.binary left op t.position :: stack) none ts
    | none => do
      match ← R.settle 1 stack v with
      | ([], v) => .ok (v, t :: ts)
      | (_ :: stack, v) =>
        if t.kind = .closeGroup then readFrom base stack (some v) ts
        else .error (.grammar (.unexpected t.lexeme t.position))

/-- The longest expression at the start, `depth` levels deep already, and the tokens after it. -/
def readPart (depth : Nat) (ts : List Token) : Except Error (α × List Token) :=
  R.readFrom depth [] none ts

/-- Tokens that form one expression and nothing more. -/
def read (ts : List Token) : Except Error α := do
  match ← R.readPart 0 ts with
  | (v, []) => .ok v
  | (_, t :: _) => .error (.grammar (.unexpected t.lexeme t.position))

end Reducer

end ClockCalc

import ClockCalc.Postfix

/-! A stack machine that computes a listing one item at a time and reports each step. -/

namespace ClockCalc

/-- A value on the stack and the text that stands for it there. -/
structure Slot where
  text : String
  value : Value
  deriving DecidableEq

/-- The report of one step: what was done, then the stack and the items left over. The first
report tells of no operation, the last of nothing else. -/
structure Report where
  operation : Option String
  stack : Option String
  input : Option String
  deriving DecidableEq

/-- The stack has its top first. -/
inductive Machine where
  | ready (items : List Postfix.Item)
  | running (stack : List Slot) (items : List Postfix.Item)
  | done
  deriving DecidableEq

namespace Machine

/-- Stands for the bottom of the stack and for the end of the items. -/
def border : String := "$"

def stackText (stack : List Slot) : String :=
  " ".intercalate (border :: stack.reverse.map Slot.text)

def inputText (items : List Postfix.Item) : String :=
  " ".intercalate (items.map Postfix.Item.text ++ [border])

def snapshot (operation : Option String) (stack : List Slot) (items : List Postfix.Item) : Report :=
  ⟨operation, some (stackText stack), some (inputText items)⟩

/-- A computed value; products, quotients and powers lose a `.0`, sums and signed values do
not. -/
def slot (mark : Mark) (v : Value) : Slot :=
  let trimmed := match mark with
    | .binary .mul | .binary .div | .binary .pow => true
    | _ => false
  ⟨v.fullText trimmed, v⟩

/-- Powers are written without spaces. -/
def equation (left : String) (op : BinaryOp) (right result : String) : String :=
  match op with
  | .pow => left ++ "^" ++ right ++ " = " ++ result
  | _ => left ++ " " ++ op.symbol ++ " " ++ right ++ " = " ++ result

def operand (text : String) : Except RunFault Value :=
  match Value.read? text.toList with
  | some v => .ok v
  | none => .error (.malformed text)

/-- Puts one item to the stack and tells what was done. -/
def apply (stack : List Slot) : Postfix.Item → Except RunFault (String × List Slot)
  | .operand text => do
    let v ← operand text
    return ("Stack " ++ text, ⟨text, v⟩ :: stack)
  | .mark (.sign op) =>
    match stack with
    | v :: stack => do
      let result ← (v.value.applySign op).mapError fun cause => .arithmetic cause none
      let top := slot (.sign op) result
      return (op.symbol ++ v.text ++ " = " ++ top.text, top :: stack)
    | [] => .error (.missingOperand (Mark.sign op).text)
  | .mark (.binary op) =>
    match stack with
    | right :: left :: stack => do
      let result ← (Value.apply op left.value right.value).mapError (·.located none)
      let top := slot (.binary op) result
      return (equation left.text op right.text top.text, top :: stack)
    | _ => .error (.missingOperand (Mark.binary op).text)

/-- One value must be left in the end. -/
def finish : List Slot → Except RunFault Report
  | [last] => .ok ⟨some ("The result is " ++ last.value.text), none, none⟩
  | [] => .error (.missingOperand border)
  | stack => .error (.leftover stack.length)

/-- The next report and the machine after it. Nothing follows the last report or a failure. -/
def next? : Machine → Option (Except RunFault Report × Machine)
  | done => none
  | ready items => some (.ok (snapshot none [] items), running [] items)
  | running stack [] => some (finish stack, done)
  | running stack (item :: items) =>
    match apply stack item with
    | .ok (operation, stack) =>
      some (.ok (snapshot (some operation) stack items), running stack items)
    | .error fault => some (.error fault, done)

/-- The most reports that can follow. -/
def bound : Machine → Nat
  | ready items => items.length + 2
  | running _ items => items.length + 1
  | done => 0

/-- The next reports, at most `n` of them, and the machine after them. -/
def take : Nat → Machine → List (Except RunFault Report) × Machine
  | 0, m => ([], m)
  | n + 1, m =>
    match m.next? with
    | none => ([], m)
    | some (report, m) =>
      let (reports, m) := take n m
      (report :: reports, m)

/-- All reports to the end. -/
def reports (m : Machine) : List (Except RunFault Report) := (m.take m.bound).1

def ofText (wanted : Option Kind) (text : String) : Except Error Machine :=
  (Postfix.ofText wanted text).map fun p => ready p.items

end Machine

end ClockCalc

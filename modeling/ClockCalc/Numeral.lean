import ClockCalc.Word

/-! Decimal numerals of whole numbers, over ASCII digits only. A run of digits is read whatever
its length and leading zeros; a written numeral has none. -/

namespace ClockCalc.Numeral

def digits (n : Nat) : List Char := Nat.toDigits 10 n

def tenTo (k : Nat) : Nat := Nat.pow 10 k

/-- At least `width` digits, filled with zeros on the left. -/
def padded (width n : Nat) : List Char :=
  List.replicate (width - (digits n).length) '0' ++ digits n

def signed (n : Int) : List Char :=
  if n < 0 then '-' :: digits n.natAbs else digits n.natAbs

def natText (n : Nat) : String := String.ofList (digits n)

def intText (n : Int) : String := String.ofList (signed n)

def value (ds : List Char) : Nat := Nat.ofDigitChars 10 ds 0

/-- A run of one or more digits and nothing else. -/
def read? (cs : List Char) : Option Nat :=
  if cs ≠ [] ∧ cs.all Char.isDigit then some (value cs) else none

/-- One sign, `+` or `-`, may stand before the digits. -/
def readSigned? : List Char → Option Int
  | '-' :: cs => (read? cs).map fun n => -(n : Int)
  | '+' :: cs => (read? cs).map fun n => (n : Int)
  | cs => (read? cs).map fun n => (n : Int)

def readWord? (cs : List Char) : Option Word := (readSigned? cs).bind Word.ofInt?

/-- A count of at most 64 bits; `+` may stand before it. -/
def readCount? (cs : List Char) : Option Nat :=
  let body := match cs with
    | '+' :: r => r
    | _ => cs
  (read? body).filter (· < 0x10000000000000000)

theorem value_digits (n : Nat) : value (digits n) = n :=
  Nat.ofDigitChars_toDigits (by decide) (by decide)

theorem isDigit_of_mem_digits {n : Nat} {c : Char} (h : c ∈ digits n) : c.isDigit = true :=
  Nat.isDigit_of_mem_toDigits (by decide) (by decide) h

end ClockCalc.Numeral

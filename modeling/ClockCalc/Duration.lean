import ClockCalc.Numeral

/-! Spans of time in whole seconds, and their text `H:MM:SS`. Reading takes any number of digits
in each part, so `90:75` is read, and is written `1:31:15`. -/

namespace ClockCalc

structure Duration where
  seconds : Word
  deriving DecidableEq

namespace Duration

def zero : Duration := ⟨Word.zero⟩

def add? (a b : Duration) : Option Duration := (a.seconds.add? b.seconds).map mk

def sub? (a b : Duration) : Option Duration := (a.seconds.sub? b.seconds).map mk

def neg? (a : Duration) : Option Duration := a.seconds.neg?.map mk

def isNegative (d : Duration) : Bool := d.seconds.val < 0

/-- The sum of the parts, each product and each partial sum within the range. -/
def ofParts? (hours minutes seconds : Word) : Option Duration := do
  let inHours ← Word.ofInt? (hours.val * 3600)
  let inMinutes ← Word.ofInt? (minutes.val * 60)
  let subtotal ← inHours.add? inMinutes
  let total ← subtotal.add? seconds
  return ⟨total⟩

def readPart? (cs : List Char) : Option Word :=
  (Numeral.read? cs).bind fun n => Word.ofInt? n

/-- Minutes and seconds, `M:S`, or hours before them, `H:M:S`. -/
def readMagnitude? (cs : List Char) : Option Duration :=
  match (cs.splitOn ':').mapM readPart? with
  | some [minutes, seconds] => ofParts? Word.zero minutes seconds
  | some [hours, minutes, seconds] => ofParts? hours minutes seconds
  | _ => none

/-- One `-` may stand before the parts. -/
def read? : List Char → Option Duration
  | '-' :: cs => (readMagnitude? cs).bind neg?
  | cs => readMagnitude? cs

def chars (d : Duration) : List Char :=
  let total := d.seconds.val.natAbs
  let magnitude := Numeral.digits (total / 3600) ++ ':' :: Numeral.padded 2 (total % 3600 / 60) ++
    ':' :: Numeral.padded 2 (total % 60)
  if d.isNegative then '-' :: magnitude else magnitude

/-- Hours without padding, minutes and seconds in two digits. -/
def text (d : Duration) : String := String.ofList d.chars

end Duration

end ClockCalc

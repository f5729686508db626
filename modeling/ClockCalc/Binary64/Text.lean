import ClockCalc.Binary64.Decimal

/-! The written forms of doubles, and their reader. -/

namespace ClockCalc

namespace Decimal

/-- The digits with the point put in its place and no exponent. -/
def positional (ds : List Char) (exponent : Int) : List Char :=
  if 0 ≤ exponent then ds ++ List.replicate exponent.toNat '0'
  else
    let places := exponent.natAbs
    if places < ds.length then
      ds.take (ds.length - places) ++ '.' :: ds.drop (ds.length - places)
    else '0' :: '.' :: (List.replicate (places - ds.length) '0' ++ ds)

/-- One digit before the point, and the power of ten after an `e`. -/
def scientific (ds : List Char) (exponent : Int) : List Char :=
  let power := exponent + ds.length - 1
  ds.take 1 ++ (if ds.length ≤ 1 then [] else '.' :: ds.drop 1) ++ 'e' :: Numeral.signed power

end Decimal

namespace Binary64

/-- The sign, and the names of the values that have no digits. -/
def spelled (magnitude : Nat → List Char) : Binary64 → String
  | .nan _ => "NaN"
  | .infinite negative => if negative then "-inf" else "inf"
  | .finite negative rank =>
    String.ofList (if negative then '-' :: magnitude rank else magnitude rank)

/-- The exact value rounded to a number of places, a half to the even digit. -/
def fixed (places : Nat) : Binary64 → String :=
  spelled fun rank =>
    let scaled := roundQuotient (unitsOfRank rank * Numeral.tenTo places) one
    Decimal.positional (Numeral.digits scaled) (-(places : Int))

/-- The fewest digits that read back, never with an exponent. -/
def plain : Binary64 → String :=
  spelled fun rank =>
    if rank = 0 then ['0']
    else
      let d := shortest rank
      Decimal.positional (Numeral.digits d.coefficient) d.exponent

/-- The fewest digits that read back, with at least one after the point. Magnitudes from
`10 ^ 16` on and below `10 ^ -4` are written with a power of ten instead. -/
def compact : Binary64 → String :=
  spelled fun rank =>
    if rank = 0 then ['0', '.', '0']
    else
      let d := shortest rank
      let ds := Numeral.digits d.coefficient
      let point := d.exponent + ds.length
      if point ≤ -4 ∨ 17 ≤ point then Decimal.scientific ds d.exponent
      else if 0 ≤ d.exponent then Decimal.positional ds d.exponent ++ ['.', '0']
      else Decimal.positional ds d.exponent

/-- The power of ten that ends a numeral: nothing, or `e`, a sign or none, and digits. -/
def readExponent? : List Char → Option Int
  | [] => some 0
  | c :: cs => if c = 'e' ∨ c = 'E' then Numeral.readSigned? cs else none

/-- Digits with at most one point and at least one digit, and perhaps a power of ten. -/
def readMagnitude? (cs : List Char) : Option Decimal :=
  let whole := cs.takeWhile Char.isDigit
  let (fraction, rest) := match cs.dropWhile Char.isDigit with
    | '.' :: r => (r.takeWhile Char.isDigit, r.dropWhile Char.isDigit)
    | r => ([], r)
  if whole ++ fraction = [] then none
  else (readExponent? rest).map fun e => ⟨Numeral.value (whole ++ fraction), e - fraction.length⟩

def infinityNames : List (List Char) := ["inf".toList, "infinity".toList]

def readUnsigned? (negative : Bool) (cs : List Char) : Option Binary64 :=
  let name := cs.map Char.toLower
  if name ∈ infinityNames then some (.infinite negative)
  else if name = "nan".toList then some quietNan
  else (readMagnitude? cs).map (ofDecimal negative)

/-- Reads a double, correctly rounded. The names of infinity and NaN are read in any case. -/
def read? : List Char → Option Binary64
  | '-' :: cs => readUnsigned? true cs
  | '+' :: cs => readUnsigned? false cs
  | cs => readUnsigned? false cs

end Binary64

end ClockCalc

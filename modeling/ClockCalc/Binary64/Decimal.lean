import ClockCalc.Binary64.Rounding
import ClockCalc.Numeral

/-! Between doubles and decimals: the double nearest to a decimal, and the fewest digits that
read back as a given double. -/

namespace ClockCalc

/-- The number `coefficient * 10 ^ exponent`. -/
structure Decimal where
  coefficient : Nat
  exponent : Int
  deriving DecidableEq

namespace Binary64

/-- The double nearest to a decimal. The two early answers only save work: `10 ^ 400` is past
every double, and `8 ^ k ≤ 10 ^ k` puts a coefficient of few bits over `10 ^ k` below half a
unit. -/
def ofDecimal (negative : Bool) (d : Decimal) : Binary64 :=
  if d.coefficient = 0 then zero negative
  else if 400 < d.exponent then .infinite negative
  else if 0 ≤ d.exponent then
    ofUnits negative (d.coefficient * Numeral.tenTo d.exponent.toNat * one) 1
  else if d.coefficient.log2 + 1101 < 3 * d.exponent.natAbs then zero negative
  else ofUnits negative (d.coefficient * one) (Numeral.tenTo d.exponent.natAbs)

/-- The decimal magnitude of `u` units: the `k` with `10 ^ (k - 1) ≤ u / one < 10 ^ k`. -/
def magnitude (u : Nat) : Int :=
  if one ≤ u then (Numeral.digits (u / one)).length
  else 1 - ((Numeral.digits ((one - 1) / u)).length : Int)

/-- The point nearest to `u` units among the two of the `n`-digit grid around it, if it reads
back as `rank`; else the other one, if that does. Half way between the two the upper is
nearer. -/
def onGrid? (rank u : Nat) (k : Int) (n : Nat) : Option Decimal :=
  let exponent := k - n
  let up := Numeral.tenTo exponent.toNat
  let down := Numeral.tenTo (-exponent).toNat
  let num := u * down
  let den := one * up
  let low := num / den
  let candidates := if den ≤ 2 * (num % den) then [low + 1, low] else [low, low + 1]
  let hit := candidates.find? fun c => nearestRank (c * up * one) down == rank
  hit.map fun c => if c = Numeral.tenTo n then ⟨1, k⟩ else ⟨c, exponent⟩

/-- The shortest decimal that reads back as the double of this rank, and of those the nearest.
Seventeen digits always suffice; the exact value stands behind them. -/
def shortest (rank : Nat) : Decimal :=
  let u := unitsOfRank rank
  let k := magnitude u
  ((List.range 17).findSome? fun i => onGrid? rank u k (i + 1)).getD ⟨u * Nat.pow 5 1074, -1074⟩

end Binary64

end ClockCalc

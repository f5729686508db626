import ClockCalc.Binary64.Basic

/-! Rounding a quotient of natural numbers to the nearest integer and to the nearest double. A
half goes to the even neighbour in both. -/

namespace ClockCalc

/-- The integer nearest to `n / d`, at a half the even one. -/
def roundQuotient (n d : Nat) : Nat :=
  let q := n / d
  let r := n % d
  if 2 * r < d then q
  else if d < 2 * r then q + 1
  else q + q % 2

namespace Binary64

/-- The rank of the double nearest to `n / d` units, or one past the finite ranks. With `s`
bits too many for a 53-bit significand the grid near `n / d` has the spacing `2 ^ s`, and its
points from `2 ^ (52 + s)` on have the ranks from `(s + 1) * 2 ^ 52` on. A significand that
rounds up to `2 ^ 53` carries into the next of these groups by itself. -/
def nearestRank (n d : Nat) : Nat :=
  let s := (n / d).log2 - 52
  s * ranksPerPower + roundQuotient n (d <<< s)

/-- The double nearest to `n / d` units, infinite from half a step past the greatest one on. -/
def ofUnits (negative : Bool) (n d : Nat) : Binary64 := ofRank negative (nearestRank n d)

def ofInt (n : Int) : Binary64 := ofUnits (n < 0) (n.natAbs * one) 1

end Binary64

end ClockCalc

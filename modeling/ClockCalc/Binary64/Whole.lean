import ClockCalc.Binary64.Rounding
import ClockCalc.Word

/-! Doubles without their fractions, and the words that hold them. -/

namespace ClockCalc.Binary64

/-- The double with its fraction dropped. What is left needs no more digits than before, so it is
never rounded. -/
def trunc : Binary64 → Binary64
  | .finite negative rank => ofUnits negative (unitsOfRank rank / one * one) 1
  | x => x

/-- The word nearest to the value with its fraction dropped; for NaN zero. -/
def saturate (x : Binary64) : Word :=
  match x.truncate? with
  | some n => .clamp n
  | none =>
    if x = .infinite true then .least
    else if x = .infinite false then .greatest
    else .zero

/-- The value with its fraction dropped, if a word holds it. The limits are doubles too. The
greatest word rounds up to `2 ^ 63`, so a value there is out of range already. -/
def toWord? (x : Binary64) : Option Word :=
  let whole := x.trunc
  if ¬ x.isFinite ∨ whole < ofInt Word.least.val ∨ ofInt Word.greatest.val ≤ whole then none
  else some whole.saturate

end ClockCalc.Binary64

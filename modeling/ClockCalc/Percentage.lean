import ClockCalc.Binary64.Arith
import ClockCalc.Binary64.Text

/-! Percentage problems: of a whole, a part and the ratio between them two are given and the
third is sought. -/

namespace ClockCalc

/-- The quantity found. -/
inductive Percentage where
  | ratio (x : Binary64)
  | part (x : Binary64)
  | whole (x : Binary64)
  deriving DecidableEq

namespace Percentage

inductive Fault where
  /-- The quantity to divide by is zero. -/
  | noResult
  | tooFew
  deriving DecidableEq

def Fault.message : Fault → String
  | noResult => "Result does not exist."
  | tooFew => "Less than two parameters passed."

/-- A ratio given along with both others is computed anew. -/
def solve (whole part ratio : Option Binary64) : Except Fault Percentage :=
  match whole, part, ratio with
  | some w, some p, _ => if w.isZero then .error .noResult else .ok (.ratio (p / w))
  | some w, none, some r => .ok (.part (w * r))
  | none, some p, some r => if r.isZero then .error .noResult else .ok (.whole (p / r))
  | _, _, _ => .error .tooFew

def value : Percentage → Binary64
  | ratio x | part x | whole x => x

def text : Percentage → String
  | ratio x => "Ratio: " ++ x.compact
  | part x => "Part: " ++ x.compact
  | whole x => "Whole: " ++ x.compact

end Percentage

end ClockCalc

import ClockCalc.Word

/-! Drawing random integers and letters. Randomness comes from a source that is asked for a
number below a bound. -/

namespace ClockCalc

/-- The integers from a lower to an upper bound, both of them included. -/
structure Span where
  lower : Word
  upper : Word
  ordered : lower.val ≤ upper.val

namespace Span

def ofBounds? (lower upper : Word) : Option Span :=
  if h : lower.val ≤ upper.val then some ⟨lower, upper, h⟩ else none

def size (s : Span) : Nat := (s.upper.val - s.lower.val).toNat + 1

/-- The integer `n` places above the lower bound, counted around. -/
def pick (s : Span) (n : Nat) : Word where
  val := s.lower.val + (n % s.size : Nat)
  lower := by have := s.lower.lower; omega
  upper := by
    have := s.upper.upper
    have := s.ordered
    have : n % s.size < s.size := Nat.mod_lt _ (Nat.succ_pos _)
    unfold size at *
    omega

theorem pick_mem (s : Span) (n : Nat) :
    s.lower.val ≤ (s.pick n).val ∧ (s.pick n).val ≤ s.upper.val := by
  have := s.ordered
  have : n % s.size < s.size := Nat.mod_lt _ (Nat.succ_pos _)
  unfold size at this
  simp only [pick]
  unfold size
  omega

end Span

namespace Draw

/-- The bounds of a draw in the wrong order. -/
inductive Fault where
  | invalidRange (lower upper : Word)
  deriving DecidableEq

def Fault.message : Fault → String
  | invalidRange .. => "Invalid range."

variable {m : Type → Type} [Monad m]

def numbers (below : Nat → m Nat) (lower upper : Word) (quantity : Nat) :
    m (Except Fault (List Word)) :=
  match Span.ofBounds? lower upper with
  | none => return .error (.invalidRange lower upper)
  | some span => do
    let drawn ← (List.range quantity).mapM fun _ => return span.pick (← below span.size)
    return .ok drawn

def alphabet : List Char := "abcdefghijklmnopqrstuvwxyzABCDEFGHIJKLMNOPQRSTUVWXYZ".toList

def letters (below : Nat → m Nat) (quantity : Nat) : m String := do
  let drawn ← (List.range quantity).mapM fun _ =>
    return alphabet.getD ((← below alphabet.length) % alphabet.length) 'a'
  return String.ofList drawn

end Draw

end ClockCalc

import ClockCalc.Files
import ClockCalc.Files.Path
import ClockCalc.Numeral

/-! Giving the files of a directory numbered names. The files are taken in the order of their
names and keep their extensions. All of them get temporary names first, so that no file takes
the name of one that still waits for its own. -/

namespace ClockCalc

/-- What a renumbering did. -/
structure Renumbering where
  renamed : Nat
  digits : Nat
  /-- The digits asked for were too few for the last number. -/
  widened : Bool
  deriving DecidableEq

namespace Renumbering

inductive Fault where
  | negativeStart (start : Word)
  | file (fault : FileFault)
  /-- No number is written with so many digits. This failure is not reported: the program breaks
  off. -/
  | tooWide (digits : Nat)
  deriving DecidableEq

def Fault.message : Fault → String
  | negativeStart _ => "Negative starting number."
  | file fault => fault.message
  | tooWide _ => "Formatting argument out of range"

/-- The most digits that a number can be filled up to. -/
def widest : Nat := 0xffff

/-- The new name of a file: stem, number and the old extension. -/
def newName (stem : String) (digits number : Nat) (name : String) : String :=
  stem ++ "-" ++ String.ofList (Numeral.padded digits number) ++ Path.extension name

/-- The digits of the last number, for so many files from a first number on. -/
def neededDigits (start count : Nat) : Nat := (Numeral.digits (start + (count - 1))).length

variable {m : Type → Type} [Monad m] (files : Files m)

/-- The names of the files of a directory in order. -/
def sortedNames (directory : String) : ExceptT Fault m (List String) := do
  match ← files.names directory with
  | .ok names => return names.mergeSort fun a b => decide (a ≤ b)
  | .error refusal => throw (.file (.failed directory refusal.text))

/-- Renames the files one after the other and stops at the first that cannot be. A name is made up
only when its turn comes, so a width that is too large does no harm without files. -/
def renameAll (directory stem : String) (digits : Nat) :
    Nat → List String → ExceptT Fault m Unit
  | _, [] => return ()
  | number, name :: names =>
    if widest < digits then throw (.tooWide digits)
    else do
      let source := Path.join directory name
      let target := Path.join (Path.trimEnd directory) (newName stem digits number name)
      match ← files.rename source target with
      | .ok () => renameAll directory stem digits (number + 1) names
      | .error refusal => throw (.file (.failed source refusal.text))

/-- Renumbers by way of names with a temporary stem. -/
def renumber (directory stem : String) (start digits : Nat) (temporary : String) :
    ExceptT Fault m Renumbering := do
  match ← files.isDirectory directory with
  | .error refusal => throw (.file (.ofRefusal directory refusal))
  | .ok false => throw (.file (.notADirectory directory))
  | .ok true =>
    let names ← sortedNames files directory
    let needed := neededDigits start names.length
    let width := max digits needed
    renameAll files directory temporary width start names
    let moved ← sortedNames files directory
    renameAll files directory stem width start moved
    return ⟨moved.length, width, digits < needed⟩

def run (directory stem : String) (start : Word) (digits : Nat) (temporary : String) :
    m (Except Fault Renumbering) :=
  if start.val < 0 then return .error (.negativeStart start)
  else (renumber files directory stem start.val.toNat digits temporary).run

end Renumbering

end ClockCalc

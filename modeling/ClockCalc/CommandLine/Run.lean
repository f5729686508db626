import ClockCalc.CommandLine.Command
import ClockCalc.Draw
import ClockCalc.Files.Renumber
import ClockCalc.Percentage
import ClockCalc.Postfix.Machine

/-! Running a command: what it shows, what it complains of, and how it exits. -/

namespace ClockCalc

/-- Something shown to the user, or a wait until Enter is pressed. -/
inductive Output where
  | text (text : String)
  | pause
  deriving DecidableEq

/-- The error that ended a command: it is reported, or the program breaks off. -/
inductive Complaint where
  | failure (message : String)
  | breakdown (message : String)
  deriving DecidableEq

/-- What a command showed, and the error that ended it. -/
structure Outcome where
  shown : List Output
  error : Option Complaint
  deriving DecidableEq

/-- What the commands need from outside. -/
structure Surroundings (m : Type → Type) where
  files : Files m
  /-- A random number below a bound. -/
  below : Nat → m Nat
  /-- The columns of the terminal. -/
  width : Nat

namespace Outcome

def line (text : String) : Outcome := ⟨[.text (text ++ "\n")], none⟩

def failure (message : String) : Outcome := ⟨[], some (.failure message)⟩

def breakdown (message : String) : Outcome := ⟨[], some (.breakdown message)⟩

def ofExcept {ε α : Type} (message : ε → String) (shown : α → Outcome) : Except ε α → Outcome
  | .ok a => shown a
  | .error e => failure (message e)

end Outcome

/-- Two texts on one line, the second at the right edge. Where they do not fit they stand two
spaces apart. -/
def padBetween (left right : String) (width : Nat) : String :=
  let free := width - (left.length + right.length)
  left ++ "".pushn ' ' (if free = 0 then 2 else free) ++ right

namespace Report

/-- The operation, then the stack at the left and the input at the right. -/
def output (width : Nat) (r : Report) : List Output :=
  let operation := r.operation.elim [] fun text => [Output.text ("> " ++ text ++ "\n")]
  let state := match r.stack, r.input with
    | some stack, some input => [Output.text ("\n" ++ padBetween stack input width ++ "\n")]
    | _, _ => []
  operation ++ state ++ [.pause]

end Report

/-- The reports one after the other, with a wait after each, up to the first failure. -/
def showReports (width : Nat) : List (Except RunFault Report) → Outcome
  | [] => ⟨[], none⟩
  | .error fault :: _ => .failure fault.message
  | .ok report :: reports =>
    let rest := showReports width reports
    { rest with shown := report.output width ++ rest.shown }

def labelled (label : String) (short : Bool) (n : Nat) : Outcome :=
  .line (if short then Numeral.natText n else label ++ Numeral.natText n)

/-- The letters of a temporary stem. -/
def temporaryLength : Nat := 10

namespace Command

variable {m : Type → Type} [Monad m] (around : Surroundings m)

def run : Command → m Outcome
  | calculate wanted expression stepwise =>
    if stepwise then
      return .ofExcept Error.message (fun machine => showReports around.width machine.reports)
        (Machine.ofText wanted expression)
    else return .ofExcept Error.message .line (answer wanted expression)
  | countChars path blanks short => do
    let count ← (around.files.countChars blanks path).run
    return .ofExcept FileFault.message (labelled "Character count: " short) count
  | countLines path ignoreBlank short => do
    let count ← (around.files.countLines ignoreBlank path).run
    return .ofExcept FileFault.message (labelled "Line count: " short) count
  | percentage whole part ratio short =>
    return .ofExcept Percentage.Fault.message
      (fun solved => .line (if short then solved.value.compact else solved.text))
      (Percentage.solve whole part ratio)
  | draw lower upper quantity => do
    let drawn ← Draw.numbers around.below lower upper quantity
    return .ofExcept Draw.Fault.message
      (fun ns => .line (" ".intercalate (ns.map fun n => Numeral.intText n.val))) drawn
  | renumber stem directory start digits => do
    let temporary ← Draw.letters around.below temporaryLength
    let outcome ← Renumbering.run around.files directory stem start digits temporary
    match outcome with
    | .ok r =>
      return if r.widened then .line "Quantity of digits had to be readjusted." else ⟨[], none⟩
    | .error (.tooWide width) => return .breakdown (Renumbering.Fault.tooWide width).message
    | .error fault => return .failure fault.message

end Command

/-- How a program ended: its exit status, what it showed and what it wrote to the error stream. -/
structure Exit where
  status : Nat
  shown : List Output
  complaint : String
  deriving DecidableEq

namespace Exit

def usage : String :=
  "Usage: clockcalc [--log-level LEVEL] COMMAND ...\n" ++
  "  calc  [-v] EXPR                               an expression whose result is a number\n" ++
  "  calct [-v] EXPR                               an expression whose result is a time\n" ++
  "  countc [--ignore-unnec] [--ignore-ws] [--short] FILE     count characters\n" ++
  "  countl [--keep-blank] [--short] FILE                     count lines\n" ++
  "  perc [-w WHOLE] [-p PART] [-r RATIO] [--short]           the third from two of them\n" ++
  "  rand [-q QUANTITY] LOWER UPPER                           random integers\n" ++
  "  stddz [-s START] [-d DIGITS] PREFIX DIRECTORY            number the files\n"

def ofOutcome (outcome : Outcome) : Exit :=
  match outcome.error with
  | none => ⟨0, outcome.shown, ""⟩
  | some (.failure message) => ⟨1, outcome.shown, "Error: " ++ message ++ "\n"⟩
  | some (.breakdown message) => ⟨101, outcome.shown, message ++ "\n"⟩

def ofRefusal : CommandLine.Refusal → Exit
  | .usage => ⟨2, [], usage⟩
  | .help => ⟨0, [.text usage], ""⟩
  | .version => ⟨0, [.text "clockcalc 1.0.0\n"], ""⟩

/-- All that was shown. -/
def text (exit : Exit) : String :=
  String.join (exit.shown.map fun
    | .text text => text
    | .pause => "")

end Exit

/-- The whole program. -/
def runArguments {m : Type → Type} [Monad m] (around : Surroundings m) (args : List String) :
    m Exit :=
  match Command.ofArguments args with
  | .error refusal => return .ofRefusal refusal
  | .ok command => return .ofOutcome (← command.run around)

end ClockCalc

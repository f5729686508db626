import ClockCalc.CommandLine.Run

/-! The program at the terminal: files and randomness of the machine, and the printing. -/

namespace ClockCalc.Terminal

/-- What the system says of a failure, sorted by its cause. -/
def refusal (e : IO.Error) : Files.Refusal :=
  let reason : Files.Reason := match e with
    | .noFileOrDirectory .. => .missing
    | .inappropriateType .. => .notDirectory
    | _ => .other
  ⟨reason, toString e⟩

def attempt {α : Type} (action : IO α) : IO (Except Files.Refusal α) :=
  try return .ok (← action) catch e => return .error (refusal e)

def hasType (type : IO.FS.FileType) (path : String) : IO Bool := do
  return (← (System.mkFilePath [path]).metadata).type == type

def files : Files IO where
  isDirectory path := attempt (hasType .dir path)
  read path := do
    if (← hasType .dir path |>.toBaseIO).toOption = some true then
      return .error ⟨.isDirectory, "Is a directory"⟩
    attempt (IO.FS.readBinFile path)
  names path := attempt do
    let entries ← (System.mkFilePath [path]).readDir
    let names := entries.toList.map (·.fileName)
    names.filterM fun name => do
      return (← hasType .file (Path.join path name) |>.toBaseIO).toOption = some true
  rename source target := attempt (IO.FS.rename source target)

def surroundings : Surroundings IO where
  files := files
  below bound := IO.rand 0 (bound - 1)
  width := 80

def display (output : Output) : IO Unit := do
  match output with
  | .text text => (← IO.getStdout).putStr text
  | .pause =>
    (← IO.getStdout).flush
    let _ ← (← IO.getStdin).getLine

end ClockCalc.Terminal

open ClockCalc in
def main (args : List String) : IO UInt32 := do
  let exit ← runArguments Terminal.surroundings args
  exit.shown.forM Terminal.display
  IO.eprint exit.complaint
  return UInt32.ofNat exit.status

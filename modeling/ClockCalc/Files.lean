import ClockCalc.Text.Count

/-! What the programs ask of a file system, and what can be said when it refuses. -/

namespace ClockCalc

inductive Files.Reason where
  | missing
  | isDirectory
  | notDirectory
  | other
  deriving DecidableEq

/-- A request turned down, and what the file system says of it. -/
structure Files.Refusal where
  reason : Files.Reason
  text : String
  deriving DecidableEq

/-- Access to files by their paths. -/
structure Files (m : Type → Type) where
  isDirectory : String → m (Except Files.Refusal Bool)
  read : String → m (Except Files.Refusal ByteArray)
  /-- The names of the regular files directly inside a directory, in any order. Those that
  cannot be reached by way of the path are left out. -/
  names : String → m (Except Files.Refusal (List String))
  /-- Gives the file at the first path the second one, and replaces a file that is there. -/
  rename : String → String → m (Except Files.Refusal Unit)

inductive FileFault where
  | missing (path : String)
  | notAFile (path : String)
  | notADirectory (path : String)
  | failed (path text : String)
  deriving DecidableEq

namespace FileFault

def ofRefusal (path : String) (refusal : Files.Refusal) : FileFault :=
  match refusal.reason with
  | .missing => .missing path
  | .isDirectory => .notAFile path
  | .notDirectory => .notADirectory path
  | .other => .failed path refusal.text

def message : FileFault → String
  | missing path => "'" ++ path ++ "' does not exist."
  | notAFile path => "'" ++ path ++ "' is not a file."
  | notADirectory path => "'" ++ path ++ "' is not a directory."
  | failed path text => "Failed to access '" ++ path ++ "': " ++ text

end FileFault

namespace Files

variable {m : Type → Type} [Monad m] (files : Files m)

/-- The text of a file, which must be UTF-8. -/
def readText (path : String) : ExceptT FileFault m String := do
  match ← files.read path with
  | .error refusal => throw (.ofRefusal path refusal)
  | .ok bytes =>
    match String.fromUTF8? bytes with
    | some text => return text
    | none => throw (.failed path "stream did not contain valid UTF-8")

def countChars (blanks : Text.Blanks) (path : String) : ExceptT FileFault m Nat :=
  return Text.countChars blanks (← files.readText path)

def countLines (ignoreBlank : Bool) (path : String) : ExceptT FileFault m Nat :=
  return Text.countLines ignoreBlank (← files.readText path)

end Files

end ClockCalc

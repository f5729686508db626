import ClockCalc.Files
import ClockCalc.Files.Path

/-! A file system held in memory. Its nodes are kept by place, the names that lead to them from
the root. -/

namespace ClockCalc

/-- The names from the root down to a node. -/
abbrev Place := List String

inductive Node where
  | file (content : ByteArray)
  | directory

def Node.isDirectory : Node → Bool
  | directory => true
  | file _ => false

/-- The most bytes that a name and that a whole path may have. -/
structure PathLimits where
  nameBytes : Nat
  pathBytes : Nat
  deriving DecidableEq

def PathLimits.usual : PathLimits := ⟨255, 4095⟩

structure Disk where
  entries : List (Place × Node)
  /-- Where relative paths start. -/
  workingDirectory : Place
  /-- Without limits every name is taken. -/
  limits : Option PathLimits

namespace Disk

/-- The root is a directory that needs no entry. -/
def find? (disk : Disk) : Place → Option Node
  | [] => some .directory
  | place => disk.entries.lookup place

def erase (disk : Disk) (place : Place) : Disk :=
  { disk with entries := disk.entries.filter fun entry => entry.1 ≠ place }

/-- Puts a node to a place, where it replaces the one that was there. -/
def insert (disk : Disk) (place : Place) (node : Node) : Disk :=
  { disk with entries := (disk.erase place).entries ++ [(place, node)] }

def missing : Files.Refusal := ⟨.missing, "No such file or directory (os error 2)"⟩
def isDirectory : Files.Refusal := ⟨.isDirectory, "Is a directory (os error 21)"⟩
def notDirectory : Files.Refusal := ⟨.notDirectory, "Not a directory (os error 20)"⟩
def tooLong : Files.Refusal := ⟨.other, "File name too long (os error 36)"⟩
def invalidPath : Files.Refusal := ⟨.other, "file name contained an unexpected NUL byte"⟩

def nameTooLong (disk : Disk) (name : String) : Bool :=
  disk.limits.any fun limits => limits.nameBytes < name.utf8ByteSize

def pathTooLong (disk : Disk) (path : String) : Bool :=
  disk.limits.any fun limits => limits.pathBytes < path.utf8ByteSize

/-- Follows the names of a path. All but the last must be those of directories; the last may be
that of nothing yet. -/
def follow (disk : Disk) : Place → List String → Except Files.Refusal Place
  | place, [] => .ok place
  | place, name :: names =>
    match disk.find? place with
    | none => .error missing
    | some (.file _) => .error notDirectory
    | some .directory =>
      if name = "" ∨ name = "." then disk.follow place names
      else if name = ".." then disk.follow place.dropLast names
      else if disk.nameTooLong name then .error tooLong
      else disk.follow (place ++ [name]) names

/-- The place that a path leads to. -/
def locate (disk : Disk) (path : String) : Except Files.Refusal Place :=
  let cs := path.toList
  if cs = [] then .error missing
  else if '\x00' ∈ cs then .error invalidPath
  else if disk.pathTooLong path then .error tooLong
  else
    let start := if cs.head? = some '/' then [] else disk.workingDirectory
    disk.follow start ((cs.splitOn '/').map String.ofList)

def node (disk : Disk) (path : String) : Except Files.Refusal (Place × Node) := do
  let place ← disk.locate path
  match disk.find? place with
  | some node => .ok (place, node)
  | none => .error missing

def read (disk : Disk) (path : String) : Except Files.Refusal ByteArray := do
  match ← disk.node path with
  | (_, .file content) => .ok content
  | (_, .directory) => .error isDirectory

/-- The name of an entry that is a regular file directly inside a place. -/
def nameIn? (place : Place) : Place × Node → Option String
  | (p, .file _) => if p.dropLast = place then p.getLast? else none
  | (_, .directory) => none

/-- A name is left out where its path would be too long. -/
def names (disk : Disk) (path : String) : Except Files.Refusal (List String) := do
  match ← disk.node path with
  | (place, .directory) =>
    let found := disk.entries.filterMap (nameIn? place)
    .ok (found.filter fun name => !disk.pathTooLong (Path.join path name))
  | (_, .file _) => .error notDirectory

/-- Moves a regular file. A directory is in the way, a file is replaced. -/
def rename (disk : Disk) (source target : String) : Except Files.Refusal Disk := do
  match ← disk.node source with
  | (_, .directory) => .error isDirectory
  | (old, .file content) =>
    let new ← disk.locate target
    match disk.find? new with
    | some .directory => .error isDirectory
    | _ => .ok ((disk.erase old).insert new (.file content))

def files : Files (StateM Disk) where
  isDirectory path := return ((← get).node path).map fun found => found.2.isDirectory
  read path := return (← get).read path
  names path := return (← get).names path
  rename source target := do
    match (← get).rename source target with
    | .ok disk => set disk; return .ok ()
    | .error refusal => return .error refusal

end Disk

end ClockCalc

import ClockCalc.Binary64.Text
import ClockCalc.Numeral

/-! Taking a command line apart. A layout says which named arguments there are, what the
positional ones may look like, and which words name a command that the rest belongs to. Texts
that begin with a hyphen are names unless the place where they stand takes them as values. -/

namespace ClockCalc.CommandLine

/-- What a value must look like. -/
inductive Shape where
  | text
  | path
  | integer
  | count
  | real
  deriving DecidableEq

def Shape.accepts (shape : Shape) (value : String) : Bool :=
  match shape with
  | text => true
  | path => value ≠ ""
  | integer => (Numeral.readWord? value.toList).isSome
  | count => (Numeral.readCount? value.toList).isSome
  | real => (Binary64.read? value.toList).isSome

/-- Which values that begin with a hyphen a place takes. -/
inductive Hyphens where
  | refused
  | negativeNumbers
  | allowed
  deriving DecidableEq

/-- An option with a value, or a switch, which has none. -/
structure Named where
  long : String
  short : Option Char
  value : Option (Shape × Hyphens)
  deriving DecidableEq

structure Positional where
  shape : Shape
  hyphens : Hyphens
  deriving DecidableEq

structure Layout where
  named : List Named
  positionals : List Positional
  commands : List String
  deriving DecidableEq

/-- Why there is nothing to run. -/
inductive Refusal where
  | usage
  | help
  | version
  deriving DecidableEq

/-- The arguments found: the names of switches and options with the options' values, and the
positional values. -/
structure Given where
  named : List (String × String)
  positionals : List String
  deriving DecidableEq

namespace Given

def empty : Given := ⟨[], []⟩

def has (g : Given) (long : String) : Bool := g.named.any fun entry => entry.1 = long

def value? (g : Given) (long : String) : Option String := g.named.lookup long

end Given

/-- What divides a number from its power of ten. -/
def isPowerMark (c : Char) : Bool := c = 'e' || c = 'E'

/-- Digits with at most one point, which comes neither first nor after the `e` or `E` that may
stand between two of them. -/
def looksNumeric (cs : List Char) : Bool :=
  let mantissa := cs.takeWhile fun c => !isPowerMark c
  let power := (cs.dropWhile fun c => !isPowerMark c).drop 1
  let point := mantissa.dropWhile (· ≠ '.')
  mantissa ≠ [] && mantissa.head? ≠ some '.' &&
    (mantissa.takeWhile (· ≠ '.')).all Char.isDigit && (point.drop 1).all Char.isDigit &&
    power.all Char.isDigit && (mantissa.length = cs.length || power ≠ [])

namespace Layout

/-- The state of a reading: the option whose value comes next, and what was found so far. -/
structure Progress where
  awaiting : Option Named
  given : Given
  deriving DecidableEq

variable (layout : Layout)

def findLong? (name : String) : Option Named := layout.named.find? fun n => n.long = name

def findShort? (c : Char) : Option Named := layout.named.find? fun n => n.short = some c

def helpName : String := "help"
def versionName : String := "version"

/-- The place that the next positional value would take. -/
def nextPositional? (given : Given) : Option Positional :=
  layout.positionals[given.positionals.length]?

def addNamed (given : Given) (n : Named) (value : String) : Except Refusal Given :=
  if given.has n.long then .error .usage
  else if n.value.all fun v => v.1.accepts value then
    .ok { given with named := given.named ++ [(n.long, value)] }
  else .error .usage

def addPositional (given : Given) (value : String) : Except Refusal Given :=
  match layout.nextPositional? given with
  | some p =>
    if p.shape.accepts value then
      .ok { given with positionals := given.positionals ++ [value] }
    else .error .usage
  | none => .error .usage

/-- Takes a text as a value: of the option that awaits one, else of the next position. -/
def takeValue (p : Progress) (value : String) : Except Refusal Progress := do
  match p.awaiting with
  | some n => return ⟨none, ← addNamed p.given n value⟩
  | none => return ⟨none, ← layout.addPositional p.given value⟩

/-- Takes a name, with the value attached to it if there is one. -/
def takeName (p : Progress) (n : Named) (attached : Option String) : Except Refusal Progress :=
  if p.awaiting.isSome then .error .usage
  else match n.value, attached with
    | none, none =>
      if n.long = helpName then .error .help
      else if n.long = versionName then .error .version
      else do return ⟨none, ← addNamed p.given n ""⟩
    | none, some _ => .error .usage
    | some _, some value => do return ⟨none, ← addNamed p.given n value⟩
    | some _, none => .ok ⟨some n, p.given⟩

/-- A run of one-letter names; what follows the name of an option is its value. -/
def takeShorts (p : Progress) : List Char → Except Refusal Progress
  | [] => .ok p
  | c :: cs =>
    match layout.findShort? c with
    | none => .error .usage
    | some n =>
      if n.value.isSome then
        let attached := match cs with
          | [] => none
          | '=' :: value => some (String.ofList value)
          | value => some (String.ofList value)
        takeName p n attached
      else do takeShorts (← takeName p n none) cs

/-- Whether the letters after a hyphen are a value where they stand. -/
def isValue (p : Progress) (letters : List Char) : Bool :=
  let negative := looksNumeric letters
  let awaited := p.awaiting.bind fun n => n.value.map Prod.snd
  match (layout.nextPositional? p.given).map Positional.hyphens with
  | some .negativeNumbers => negative
  | some .allowed =>
    (awaited = some .negativeNumbers && negative) ||
      letters.any fun c => (layout.findShort? c).isNone
  | _ => awaited = some .negativeNumbers && negative

/-- Takes one argument before `--`. -/
def takeArgument (p : Progress) (arg : String) : Except Refusal Progress :=
  match arg.toList with
  | '-' :: '-' :: cs =>
    let name := String.ofList (cs.takeWhile (· ≠ '='))
    let attached := match cs.dropWhile (· ≠ '=') with
      | _ :: value => some (String.ofList value)
      | [] => none
    match layout.findLong? name with
    | some n => takeName p n attached
    | none =>
      if (layout.nextPositional? p.given).any fun place => place.hyphens = .allowed then
        layout.takeValue p arg
      else .error .usage
  | '-' :: c :: cs =>
    if layout.isValue p (c :: cs) then layout.takeValue p arg
    else layout.takeShorts p (c :: cs)
  | _ => layout.takeValue p arg

/-- Reads arguments up to the name of a command, which is returned with those after it. After
`--` all are positional. -/
def readFrom (p : Progress) :
    List String → Except Refusal (Given × Option (String × List String))
  | [] => if p.awaiting.isSome then .error .usage else .ok (p.given, none)
  | arg :: args =>
    if p.awaiting.isNone ∧ arg ∈ layout.commands then .ok (p.given, some (arg, args))
    else if arg = "--" then do
      if p.awaiting.isSome then .error .usage
      else return (← args.foldlM layout.addPositional p.given, none)
    else do readFrom (← layout.takeArgument p arg) args

def read (args : List String) : Except Refusal (Given × Option (String × List String)) :=
  layout.readFrom ⟨none, .empty⟩ args

end Layout

end ClockCalc.CommandLine

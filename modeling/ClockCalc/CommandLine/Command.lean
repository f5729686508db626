import ClockCalc.CommandLine.Arguments
import ClockCalc.Kind
import ClockCalc.Text.Count

/-! The commands and their arguments. -/

namespace ClockCalc

inductive Command where
  | calculate (wanted : Kind) (expression : String) (stepwise : Bool)
  | countChars (path : String) (blanks : Text.Blanks) (short : Bool)
  | countLines (path : String) (ignoreBlank short : Bool)
  | percentage (whole part ratio : Option Binary64) (short : Bool)
  | draw (lower upper : Word) (quantity : Nat)
  | renumber (stem directory : String) (start : Word) (digits : Nat)
  deriving DecidableEq

namespace CommandLine

/-- A command by its name, with what it makes of its arguments. Nothing is made where a
positional value is missing. -/
structure Form where
  name : String
  named : List Named
  positionals : List Positional
  build : Given → Option Command

def switch (long : String) (short : Option Char) : Named := ⟨long, short, none⟩

def helpSwitch : Named := switch Layout.helpName (some 'h')

def versionSwitch : Named := switch Layout.versionName (some 'V')

/-- How much is logged. There is nothing to log, so the value is taken and forgotten. -/
def logLevel : Named := ⟨"log-level", none, some (.text, .refused)⟩

def shortSwitch : Named := switch "short" none

def calculation (name : String) (wanted : Kind) : Form where
  name := name
  named := [switch "visualize" (some 'v')]
  positionals := [⟨.text, .allowed⟩]
  build g :=
    match g.positionals with
    | [expression] => some (.calculate wanted expression (g.has "visualize"))
    | _ => none

def charCount : Form where
  name := "countc"
  named := [switch "ignore-unnec" none, switch "ignore-ws" none, shortSwitch]
  positionals := [⟨.path, .refused⟩]
  build g :=
    match g.positionals with
    | [path] =>
      let blanks := Text.Blanks.ofWishes (g.has "ignore-unnec") (g.has "ignore-ws")
      some (.countChars path blanks (g.has "short"))
    | _ => none

def lineCount : Form where
  name := "countl"
  named := [switch "keep-blank" none, shortSwitch]
  positionals := [⟨.path, .refused⟩]
  build g :=
    match g.positionals with
    | [path] => some (.countLines path (!g.has "keep-blank") (g.has "short"))
    | _ => none

def quantity (long : String) (short : Char) : Named :=
  ⟨long, some short, some (.real, .negativeNumbers)⟩

def percentage : Form where
  name := "perc"
  named := [quantity "whole" 'w', quantity "part" 'p', quantity "ratio" 'r', shortSwitch]
  positionals := []
  build g :=
    let value (long : String) := (g.value? long).bind fun text => Binary64.read? text.toList
    some (.percentage (value "whole") (value "part") (value "ratio") (g.has "short"))

def countOf (g : Given) (long : String) (default : Nat) : Nat :=
  ((g.value? long).bind fun text => Numeral.readCount? text.toList).getD default

def draw : Form where
  name := "rand"
  named := [⟨"quantity", some 'q', some (.count, .refused)⟩]
  positionals := [⟨.integer, .negativeNumbers⟩, ⟨.integer, .negativeNumbers⟩]
  build g :=
    match g.positionals.map fun text => Numeral.readWord? text.toList with
    | [some lower, some upper] => some (.draw lower upper (countOf g "quantity" 1))
    | _ => none

def renumbering : Form where
  name := "stddz"
  named :=
    [⟨"start", some 's', some (.integer, .negativeNumbers)⟩,
      ⟨"digits", some 'd', some (.count, .refused)⟩]
  positionals := [⟨.text, .refused⟩, ⟨.path, .refused⟩]
  build g :=
    match g.positionals with
    | [stem, directory] =>
      let start := (g.value? "start").bind fun text => Numeral.readWord? text.toList
      some (.renumber stem directory (start.getD .zero) (countOf g "digits" 3))
    | _ => none

def forms : List Form :=
  [calculation "calc" .number, calculation "calct" .time, charCount, lineCount, percentage, draw,
    renumbering]

def Form.layout (form : Form) : Layout :=
  ⟨form.named ++ [logLevel, helpSwitch], form.positionals, []⟩

/-- What may stand before the name of a command. -/
def rootLayout : Layout :=
  ⟨[logLevel, helpSwitch, versionSwitch], [], forms.map Form.name ++ [Layout.helpName]⟩

end CommandLine

open CommandLine in
def Command.ofArguments (args : List String) : Except Refusal Command := do
  match ← rootLayout.read args with
  | (_, none) => .error .usage
  | (_, some (name, rest)) =>
    match forms.find? fun form => form.name = name with
    | some form =>
      let (given, _) ← form.layout.read rest
      match form.build given with
      | some command => .ok command
      | none => .error .usage
    | none =>
      -- the one name without a form asks for help, about one command at most
      if rest = [] ∨ (rest.length = 1 ∧ rest.all (rootLayout.commands.contains ·)) then
        .error .help
      else .error .usage

end ClockCalc

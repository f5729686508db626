import ClockCalc.Text.Blank

/-! Counting the characters and the lines of a text. -/

namespace ClockCalc.Text

/-- What becomes of the blanks when characters are counted. -/
inductive Blanks where
  | counted
  /-- Those at the ends and those that follow another one are left out. -/
  | collapsed
  | skipped
  deriving DecidableEq

/-- To leave all blanks out is the stronger wish. -/
def Blanks.ofWishes (unnecessary all : Bool) : Blanks :=
  if all then .skipped else if unnecessary then .collapsed else .counted

/-- The characters that do not follow a blank as another blank. -/
def countCollapsed (cs : List Char) : Nat :=
  (cs.zip ('.' :: cs)).countP fun (c, before) => !(isBlank c && isBlank before)

def countChars (blanks : Blanks) (text : String) : Nat :=
  match blanks with
  | .counted => text.toList.length
  | .collapsed => countCollapsed (trim text.toList)
  | .skipped => text.toList.countP fun c => !isBlank c

/-- Lines end with a line feed; the last one may lack it. -/
def lines (cs : List Char) : List (List Char) :=
  let pieces := cs.splitOn '\n'
  if pieces.getLast? = some [] then pieces.dropLast else pieces

/-- Blank lines hold nothing but blanks. -/
def countLines (ignoreBlank : Bool) (text : String) : Nat :=
  (lines text.toList).countP fun line => !(ignoreBlank && line.all isBlank)

end ClockCalc.Text

/-! File names and paths. -/

namespace ClockCalc.Path

/-- The path of a name as seen from a directory. A name that is an absolute path stands for
itself. -/
def join (directory name : String) : String :=
  if name.toList.head? = some '/' then name
  else if directory.toList.getLast? = some '/' then directory ++ name
  else directory ++ "/" ++ name

def trimEndChars : List Char → List Char
  | '.' :: '/' :: cs => trimEndChars ('/' :: cs)
  | '/' :: c :: cs => trimEndChars (c :: cs)
  | cs => cs

/-- A path without the slashes and the names `.` at its end, which lead nowhere. What the path
begins with stays. -/
def trimEnd (path : String) : String := String.ofList (trimEndChars path.toList.reverse).reverse

def extensionChars (name : List Char) : List Char :=
  let tail := (name.reverse.takeWhile (· ≠ '.')).reverse
  if tail.length + 1 < name.length then '.' :: tail else []

/-- The last point of a name and what follows it. A point at the very start begins no
extension. -/
def extension (name : String) : String := String.ofList (extensionChars name.toList)

end ClockCalc.Path

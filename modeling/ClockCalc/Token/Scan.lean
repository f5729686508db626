import ClockCalc.Error

/-! Cutting the text of an expression into tokens. At each place the longest token that begins
there is taken, and only ASCII spaces are skipped. -/

namespace ClockCalc.Token

/-- A mark and the digits after it; nothing if either is missing. -/
def markedRun (mark : Char) : List Char → List Char
  | [] => []
  | c :: cs =>
    let run := cs.takeWhile Char.isDigit
    if c = mark ∧ run ≠ [] then c :: run else []

/-- The longest literal that begins with the first digit of the text. -/
def longestLiteral (cs : List Char) : LiteralForm × List Char :=
  let whole := cs.takeWhile Char.isDigit
  let rest := cs.dropWhile Char.isDigit
  let second := markedRun ':' rest
  let fraction := markedRun '.' rest
  if second ≠ [] then (.time, whole ++ second ++ markedRun ':' (rest.drop second.length))
  else if fraction ≠ [] then (.decimal, whole ++ fraction)
  else (.integer, whole)

def symbolKind? : Char → Option Kind
  | '+' => some (.operator .add)
  | '-' => some (.operator .sub)
  | '*' => some (.operator .mul)
  | '/' => some (.operator .div)
  | '^' => some (.operator .pow)
  | '(' => some .openGroup
  | ')' => some .closeGroup
  | _ => none

/-- The longest token at the start of the text. -/
def longest? : List Char → Option (Kind × List Char)
  | [] => none
  | c :: cs =>
    if c.isDigit then
      let (form, lexeme) := longestLiteral (c :: cs)
      some (.literal form, lexeme)
    else (symbolKind? c).map fun kind => (kind, [c])

/-- The tokens up to the first place where none begins. -/
structure Scan where
  tokens : List Token
  stop : Option Unreadable
  deriving DecidableEq

/-- Scans from a byte offset on. The first `inside` characters belong to a token that has been
taken already. -/
def scanFrom (position inside : Nat) : List Char → Scan
  | [] => ⟨[], none⟩
  | c :: cs =>
    let next := position + c.utf8Size
    match inside with
    | rest + 1 => scanFrom next rest cs
    | 0 =>
      if c = ' ' then scanFrom next 0 cs
      else match longest? (c :: cs) with
        | none => ⟨[], some ⟨c, position⟩⟩
        | some (kind, lexeme) =>
          let scan := scanFrom next (lexeme.length - 1) cs
          { scan with tokens := ⟨kind, String.ofList lexeme, position⟩ :: scan.tokens }

def scan (text : String) : Scan := scanFrom 0 0 text.toList

/-- All tokens of a text, if the whole of it can be read. -/
def ofText (text : String) : Except Unreadable (List Token) :=
  match scan text with
  | ⟨tokens, none⟩ => .ok tokens
  | ⟨_, some stop⟩ => .error stop

end ClockCalc.Token

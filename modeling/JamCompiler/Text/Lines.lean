/-!
# Lines and places

A text has two notions of line. Counted lines end at line feeds alone; shown lines, those a
diagnostic prints, also end at the other break characters, and a carriage return with the line
feed after it is one break. The two agree on texts whose only break is the line feed.
Positions count characters from zero.
-/

namespace JamCompiler.Text

/-- The characters at which a shown line ends. -/
def isBreak (c : Char) : Bool :=
  ['\n', '\r', '\x0b', '\x0c', '\x1c', '\x1d', '\x1e', '\u0085', '\u2028', '\u2029'].contains c

/-- The shown lines of a text, without their breaks. A break at the end opens no further line. -/
def lines : List Char → List (List Char)
  | [] => []
  | '\r' :: '\n' :: rest => [] :: lines rest
  | c :: rest =>
    if isBreak c then [] :: lines rest
    else match lines rest with
      | [] => [[c]]
      | line :: more => (c :: line) :: more

/-- Every break, whichever way it is written with carriage returns, as one line feed. -/
def unifyBreaks : List Char → List Char
  | [] => []
  | '\r' :: '\n' :: rest => '\n' :: unifyBreaks rest
  | c :: rest => (if c = '\r' then '\n' else c) :: unifyBreaks rest

/-- A line counted from one, and a column, which is one at a line's first character. Columns of
positions before the text can be negative. -/
structure Place where
  line : Nat
  column : Int
  deriving DecidableEq

/-- The part of a text before a position. A negative position counts from the end. -/
def before (text : List Char) (pos : Int) : List Char :=
  if 0 ≤ pos then text.take pos.toNat else text.take (text.length - (-pos).toNat)

/-- The length of a text up to and including its last line feed. -/
def lineStart (text : List Char) : Nat := (text.reverse.dropWhile (· != '\n')).length

/-- The counted line of a position and its column there. -/
def place (text : List Char) (pos : Int) : Place :=
  let passed := before text pos
  { line := passed.count '\n' + 1, column := pos - lineStart passed + 1 }

end JamCompiler.Text

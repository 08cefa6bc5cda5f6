import JamCompiler.Text.Digit
import JamCompiler.Token

/-!
# Scanning

A text is read as a sequence of pieces: blanks, comments and tokens, each as long as it can be
(a block comment as short as it can be). `Scan.ofText` gives the tokens up to the first place
where no piece begins, and what is wrong there. It does not say which token sequences make a
program.
-/

namespace JamCompiler

inductive ScanFault
  | illegalCharacter (c : Char)
  | openComment
  | longNumber
  deriving DecidableEq

/-- What the front of a text is, with its length. -/
inductive Piece
  | blank (length : Nat)
  | token (kind : TokenKind) (length : Nat)
  | fault (fault : ScanFault)
  deriving DecidableEq

namespace Piece

/-- The longest run of digits that is taken for a number. -/
def maxDigits : Nat := 4300

def isWordStart (c : Char) : Bool := c.isAlpha

def isWordPart (c : Char) : Bool := c.isAlphanum || c = '_'

/-- The length of the rest of a block comment up to and including its end, if it ends. -/
def commentRest : List Char → Option Nat
  | [] => none
  | '*' :: '/' :: _ => some 2
  | _ :: rest => (commentRest rest).map (· + 1)

/-- The symbol that a text begins with, with its length. Of two symbols the longer is meant. -/
def symbol? (c : Char) (rest : List Char) : Option (Symbol × Nat) :=
  match c, rest with
  | '&', '&' :: _ => some (.and, 2)
  | '|', '|' :: _ => some (.or, 2)
  | '=', '=' :: _ => some (.eq, 2)
  | '!', '=' :: _ => some (.ne, 2)
  | '<', '=' :: _ => some (.le, 2)
  | '>', '=' :: _ => some (.ge, 2)
  | '(', _ => some (.lparen, 1)
  | ')', _ => some (.rparen, 1)
  | '\x7b', _ => some (.lbrace, 1)
  | '\x7d', _ => some (.rbrace, 1)
  | '[', _ => some (.lbracket, 1)
  | ']', _ => some (.rbracket, 1)
  | ',', _ => some (.comma, 1)
  | ';', _ => some (.semicolon, 1)
  | '.', _ => some (.dot, 1)
  | '=', _ => some (.assign, 1)
  | '!', _ => some (.not, 1)
  | '<', _ => some (.lt, 1)
  | '>', _ => some (.gt, 1)
  | '+', _ => some (.plus, 1)
  | '-', _ => some (.minus, 1)
  | '*', _ => some (.times, 1)
  | '/', _ => some (.divide, 1)
  | _, _ => none

def number (c : Char) (rest : List Char) : Piece :=
  let digits := c :: rest.takeWhile Text.isDigit
  if digits.length ≤ maxDigits then .token (.number (Text.numeral digits)) digits.length
  else .fault .longNumber

def word (c : Char) (rest : List Char) : Piece :=
  let letters := c :: rest.takeWhile isWordPart
  let name := String.ofList letters
  match Keyword.ofSpelling? name with
  | some keyword => .token (.keyword keyword) letters.length
  | none => .token (.ident name) letters.length

def slash (rest : List Char) : Piece :=
  match rest with
  | '/' :: rest => .blank ((rest.takeWhile (· != '\n')).length + 2)
  | '*' :: rest => match commentRest rest with
    | some n => .blank (n + 2)
    | none => .fault .openComment
  | _ => .token (.symbol .divide) 1

theorem slash_line (cs : List Char) :
    slash ('/' :: cs) = .blank ((cs.takeWhile (· != '\n')).length + 2) := rfl

theorem slash_block (cs : List Char) :
    slash ('*' :: cs) = match commentRest cs with
      | some n => .blank (n + 2)
      | none => .fault .openComment := rfl

theorem slash_other {d : Char} (line : d ≠ '/') (block : d ≠ '*') (cs : List Char) :
    slash (d :: cs) = .token (.symbol .divide) 1 := by
  unfold slash
  split <;> simp_all

/-- The piece at the front of the text `c :: rest`. -/
def first (c : Char) (rest : List Char) : Piece :=
  if c = ' ' || c = '\t' || c = '\r' || c = '\n' then .blank 1
  else if c = '/' then slash rest
  else if Text.isDigit c then number c rest
  else if isWordStart c then word c rest
  else match symbol? c rest with
    | some (s, n) => .token (.symbol s) n
    | none => .fault (.illegalCharacter c)

end Piece

/-- The tokens of a text up to its end or to a fault, the place of the fault, and the counted line
at which reading stopped. -/
structure Scan where
  tokens : List Token
  fault : Option (ScanFault × Nat)
  line : Nat

namespace Scan

/-- Reads on at position `pos`, on line `line`, once the rest of the current piece, `skip`
characters, has been passed. -/
def ofTextFrom (pos line skip : Nat) : List Char → Scan
  | [] => ⟨[], none, line⟩
  | c :: rest =>
    let next := if c = '\n' then line + 1 else line
    match skip with
    | skip + 1 => ofTextFrom (pos + 1) next skip rest
    | 0 => match Piece.first c rest with
      | .blank n => ofTextFrom (pos + 1) next (n - 1) rest
      | .token kind n =>
        let scan := ofTextFrom (pos + 1) next (n - 1) rest
        { scan with tokens := ⟨kind, pos, line⟩ :: scan.tokens }
      | .fault fault => ⟨[], some (fault, pos), line⟩

def ofText (text : List Char) : Scan := ofTextFrom 0 1 0 text

end Scan

end JamCompiler

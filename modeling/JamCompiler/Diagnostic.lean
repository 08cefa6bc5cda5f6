import JamCompiler.Fault
import JamCompiler.Text.Lines

/-!
# Diagnostics

A diagnostic is a fault at a position of the source. It is shown with its place, the source line
there and a mark under the column. A `Log` collects diagnostics in the order in which they were
found; errors and notes are kept apart.

The line shown is the shown line whose number is the counted line of the position. In texts with
breaks other than line feeds that can be a different line, or none.
-/

namespace JamCompiler

structure Source where
  path : String := "<input>"
  text : List Char

namespace Source

def ofString (text : String) (path : String) : Source := ⟨path, text.toList⟩

/-- The line that a diagnostic shows for a counted line number. -/
def shownLine (source : Source) (line : Nat) : List Char :=
  (Text.lines source.text)[line - 1]?.getD []

end Source

inductive Severity
  | error
  | note
  | other (word : String)
  deriving DecidableEq

namespace Severity

def word : Severity → String
  | error => "error"
  | note => "note"
  | other word => word

def ofWord (word : String) : Severity :=
  if word = "error" then error else if word = "note" then note else other word

end Severity

structure Diagnostic where
  severity : Severity
  fault : Fault
  pos : Int
  deriving DecidableEq

/-- The codes that set off the parts of a diagnostic: all empty in plain text. -/
structure Palette where
  reset : String := ""
  bold : String := ""
  red : String := ""
  blue : String := ""
  cyan : String := ""

namespace Palette

def plain : Palette := {}

def terminal : Palette :=
  { reset := "\x1b[0m", bold := "\x1b[1m", red := "\x1b[31m", blue := "\x1b[34m"
    cyan := "\x1b[36m" }

/-- Errors are red and everything else is blue. -/
def forSeverity (p : Palette) : Severity → String
  | .error => p.red
  | _ => p.blue

end Palette

namespace Diagnostic

def message (d : Diagnostic) : String := d.fault.message

/-- The hint, if there is one; an empty one counts as none. -/
def shownHint (d : Diagnostic) : Option String := d.fault.hint.filter (· ≠ "")

/-- Line and column of a diagnostic, both zero without a source. -/
def place (source : Option Source) (d : Diagnostic) : Text.Place :=
  match source with
  | some source => Text.place source.text d.pos
  | none => ⟨0, 0⟩

def spaces (n : Nat) : String := String.ofList (List.replicate n ' ')

def header (p : Palette) (d : Diagnostic) : String :=
  p.bold ++ p.forSeverity d.severity ++ d.severity.word ++ p.reset
    ++ p.bold ++ ": " ++ d.message ++ p.reset

/-- The diagnostic as shown, without a break at its end. Without a source it is the header. -/
def render (p : Palette) (source : Option Source) (d : Diagnostic) : String :=
  match source with
  | none => d.header p
  | some source =>
    let place := Text.place source.text d.pos
    let number := toString place.line
    let arrow := p.bold ++ p.blue ++ "-->" ++ p.reset
    let margin := p.bold ++ p.blue ++ spaces number.length ++ " |" ++ p.reset
    let shown := String.ofList (source.shownLine place.line)
    let mark := p.bold ++ p.forSeverity d.severity ++ "^~~~" ++ p.reset
    let body := String.intercalate "\n"
      [ d.header p,
        arrow ++ " " ++ source.path ++ ":" ++ number ++ ":" ++ toString place.column,
        margin,
        p.bold ++ p.blue ++ number ++ " |" ++ p.reset ++ " " ++ shown,
        margin ++ " " ++ spaces (place.column - 1).toNat ++ mark ]
    match d.shownHint with
    | none => body
    | some hint =>
      body ++ "\n" ++ margin ++ "\n" ++ margin ++ " " ++ p.bold ++ p.cyan ++ "help:" ++ p.reset
        ++ " " ++ hint

end Diagnostic

/-- The diagnostics found so far, the earliest first. -/
structure Log where
  failFast : Bool := false
  errors : List Diagnostic := []
  notes : List Diagnostic := []

namespace Log

def addError (log : Log) (fault : Fault) (pos : Int) : Log :=
  { log with errors := log.errors ++ [⟨.error, fault, pos⟩] }

def addNote (log : Log) (fault : Fault) (pos : Int) : Log :=
  { log with notes := log.notes ++ [⟨.note, fault, pos⟩] }

def isClean (log : Log) : Bool := log.errors.isEmpty

/-- All diagnostics, errors first, each followed by an empty line. -/
def render (p : Palette) (source : Option Source) (log : Log) : String :=
  String.join ((log.errors ++ log.notes).map fun d => d.render p source ++ "\n\n")

end Log

end JamCompiler

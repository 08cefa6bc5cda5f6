/-!
# Paths

Paths as texts in which slashes separate names. Nothing here looks at files: `absolute` takes
`..` for the name before it away even where that name is no directory.
-/

namespace JamCompiler

abbrev Path := List Char

namespace Path

/-- Splits a path after its last slash. -/
def split (p : Path) : Path × Path :=
  let back := p.reverse
  ((back.dropWhile (· != '/')).reverse, (back.takeWhile (· != '/')).reverse)

/-- A name without its extension, which starts at the last dot; dots at the start of a name begin
no extension. -/
def stem (name : List Char) : List Char :=
  match name.reverse.dropWhile (· != '.') with
  | [] => name
  | _ :: back => if back.any (· != '.') then back.reverse else name

def listingExtension : List Char := ".mJAM.txt".toList

/-- Where the listing of a source file goes by default: beside it, with another extension. -/
def listing (p : Path) : Path := p.split.1 ++ stem p.split.2 ++ listingExtension

/-- The names of a path; slashes next to each other have no name between them. -/
def names : Path → List (List Char)
  | [] => []
  | '/' :: rest => names rest
  | [c] => [[c]]
  | c :: '/' :: rest => [c] :: names rest
  | c :: rest => match names rest with
    | [] => [[c]]
    | name :: more => (c :: name) :: more

def isAbsolute (p : Path) : Bool := p.head? = some '/'

def endsInSlash (p : Path) : Bool := p.getLast? = some '/'

/-- The length of a text in bytes, as the system counts it. -/
def byteLength (text : List Char) : Nat := text.foldl (fun n c => n + c.utf8Size) 0

/-- The bytes that a name can have. -/
def maxNameLength : Nat := 255

/-- The bytes that a whole path can have. -/
def maxLength : Nat := 4095

/-- Whether a path holds the null character, which ends a path for the system. -/
def holdsNull (p : Path) : Bool := p.contains '\x00'

/-- The name of the directory itself. -/
def here : List Char := ['.']

/-- The name of the directory above. -/
def parent : List Char := ['.', '.']

/-- Goes along names from a place, which is given innermost name first. -/
def follow (place : List (List Char)) : List (List Char) → List (List Char)
  | [] => place
  | name :: rest =>
    if name = here then follow place rest
    else if name = parent then follow place.tail rest
    else follow (name :: place) rest

def join (names : List (List Char)) : Path := List.intercalate ['/'] names

/-- The slashes that an absolute path keeps at its front. Exactly two can have a meaning of their
own and stay; any other number counts as one. -/
def front : Path → Path
  | '/' :: '/' :: '/' :: _ => ['/']
  | '/' :: '/' :: _ => ['/', '/']
  | _ => ['/']

/-- The path seen from the root, without `.` and `..`. The working directory is given by its names
from the root on. -/
def absolute (home : List (List Char)) (p : Path) : Path :=
  let start := if p.isAbsolute then [] else home.reverse
  front p ++ join (follow start p.names).reverse

end Path

end JamCompiler

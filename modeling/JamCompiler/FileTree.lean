import JamCompiler.Path
import JamCompiler.Text.Quoted

/-!
# File trees

Files and directories as a value. A place is given by its names from the root on. Besides what a
tree holds there is what every system has: the root, the directories on the way to the working
directory, a directory for devices with the null device in it, and one for temporary files. The
null device is empty and takes whatever is written to it; what was written is nowhere afterwards.

There are no permissions and no links, so nothing here is denied.
-/

namespace JamCompiler

/-- Why a file cannot be opened. -/
inductive FileFault
  | missing
  | denied
  | notDirectory
  | isDirectory
  | nameTooLong
  deriving DecidableEq

namespace FileFault

def number : FileFault → Nat
  | missing => 2
  | denied => 13
  | notDirectory => 20
  | isDirectory => 21
  | nameTooLong => 36

def text : FileFault → String
  | missing => "No such file or directory"
  | denied => "Permission denied"
  | notDirectory => "Not a directory"
  | isDirectory => "Is a directory"
  | nameTooLong => "File name too long"

def all : List FileFault := [missing, denied, notDirectory, isDirectory, nameTooLong]

def ofNumber? (n : Nat) : Option FileFault := all.find? (·.number == n)

theorem ofNumber?_number (f : FileFault) : ofNumber? f.number = some f := by
  cases f <;> rfl

/-- The message for a fault with the path as it was given. -/
def message (f : FileFault) (path : Path) : String :=
  let shown := String.ofList (Text.quoted path)
  s!"[Errno {f.number}] {f.text}: {shown}"

end FileFault

/-- A place in a file tree, as its names from the root on. -/
abbrev FileTree.Place := List (List Char)

structure FileTree where
  home : FileTree.Place := []
  dirs : List FileTree.Place := []
  files : List (FileTree.Place × List UInt8) := []

namespace FileTree

def deviceDir : Place := ["dev".toList]

def nullDevice : Place := ["dev".toList, "null".toList]

def temporaryDir : Place := ["tmp".toList]

def isDir (t : FileTree) (place : Place) : Bool :=
  place.isPrefixOf t.home || place = deviceDir || place = temporaryDir || t.dirs.contains place

/-- The contents of the file at a place. -/
def file? (t : FileTree) (place : Place) : Option (List UInt8) :=
  if place = nullDevice then some [] else t.files.lookup place

/-- Goes from a place along names. Whatever is followed by another name has to be a directory. -/
def walk (t : FileTree) : Place → List (List Char) → Except FileFault Place
  | place, [] => .ok place
  | place, name :: rest =>
    if !t.isDir place then .error .notDirectory
    else if name = Path.here then walk t place rest
    else if name = Path.parent then walk t place.dropLast rest
    else if Path.maxNameLength < Path.byteLength name then .error .nameTooLong
    else
      let next := place ++ [name]
      if t.isDir next || (t.file? next).isSome then walk t next rest
      else .error .missing

/-- Where walking along a path begins. -/
def origin (t : FileTree) (p : Path) : Place := if p.isAbsolute then [] else t.home

/-- What is wrong with a path whatever the files are. -/
def pathFault? (p : Path) : Option FileFault :=
  if p.isEmpty then some .missing
  else if Path.maxLength < Path.byteLength p then some .nameTooLong
  else none

/-- The contents of the file at a path. -/
def read (t : FileTree) (p : Path) : Except FileFault (List UInt8) :=
  match pathFault? p with
  | some fault => .error fault
  | none =>
    match t.walk (t.origin p) p.names with
    | .error fault => .error fault
    | .ok place =>
      match t.isDir place, t.file? place with
      | true, _ => .error .isDirectory
      | false, none => .error .missing
      | false, some bytes => if p.endsInSlash then .error .notDirectory else .ok bytes

/-- The tree with a file in place of any that was there. The null device keeps nothing. -/
def put (t : FileTree) (place : Place) (bytes : List UInt8) : FileTree :=
  if place = nullDevice then t
  else { t with files := (place, bytes) :: t.files.filter (·.1 ≠ place) }

/-- Writes a file with a name into a directory. -/
def writeIn (t : FileTree) (dir : Place) (name : List Char) (bytes : List UInt8) :
    Except FileFault FileTree :=
  if name = Path.here || name = Path.parent then .error .isDirectory
  else if Path.maxNameLength < Path.byteLength name then .error .nameTooLong
  else if t.isDir (dir ++ [name]) then .error .isDirectory
  else .ok (t.put (dir ++ [name]) bytes)

/-- Writes the file at a path. Its directory must exist, and a slash at the end asks for a
directory. -/
def write (t : FileTree) (p : Path) (bytes : List UInt8) : Except FileFault FileTree :=
  match pathFault? p, p.names.getLast? with
  | some fault, _ => .error fault
  | none, none => .error .isDirectory
  | none, some name =>
    match t.walk (t.origin p) p.names.dropLast with
    | .error fault => .error fault
    | .ok dir =>
      if !t.isDir dir then .error .notDirectory
      else if p.endsInSlash then .error .isDirectory
      else t.writeIn dir name bytes

/-- The place as seen from the working directory, if it lies below it. -/
def belowHome? (t : FileTree) (place : Place) : Option Place :=
  if t.home.isPrefixOf place then some (place.drop t.home.length) else none

/-- The files below the working directory that another tree does not have with the same contents. -/
def changesSince (t before : FileTree) : List (Place × List UInt8) :=
  t.files.filterMap fun (place, bytes) =>
    if before.file? place = some bytes then none
    else (t.belowHome? place).map fun below => (below, bytes)

end FileTree

end JamCompiler

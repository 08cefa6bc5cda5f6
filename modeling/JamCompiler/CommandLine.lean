import JamCompiler.Compile
import JamCompiler.FileTree
import JamCompiler.Text.Utf8

/-!
# The command line

What a run of the compiler prints, writes and ends with, given its arguments and the bytes of its
input. Options may stand before and after the input file, and the last of two output paths counts.
Asking for help ends the run at once, even before arguments that are wrong.

Arguments are strings of Unicode scalar values, and what a run prints is text, whose encoding is not
modelled.
-/

namespace JamCompiler.CommandLine

structure Options where
  output : Option String := none
  failFast : Bool := false
  color : Bool := false
  files : List String := []

/-- What is wrong with the arguments. -/
inductive Misuse
  | noOutputPath
  | unknownOption (option : String)
  | notOneFile

def usage : String := "usage: minijava <file.java> [-o OUTPUT] [--fail-fast] [--no-color]\n"

def Misuse.message : Misuse → String
  | noOutputPath => "error: -o/--output requires a path\n"
  | unknownOption option => s!"error: unknown option '{option}'\n" ++ usage
  | notOneFile => "error: expected exactly one input file\n" ++ usage

/-- What the arguments ask for. -/
inductive Command
  | help
  | misuse (misuse : Misuse)
  | compile (file : String) (options : Options)

/-- Reads the arguments after those that gave `options`. -/
def readArgs (options : Options) : List String → Command
  | [] =>
    match options.files with
    | [file] => .compile file options
    | _ => .misuse .notOneFile
  | [arg] =>
    if arg = "-o" || arg = "--output" then .misuse .noOutputPath
    else readFlag options arg (readArgs · [])
  | arg :: next :: rest =>
    if arg = "-o" || arg = "--output" then readArgs { options with output := some next } rest
    else readFlag options arg (readArgs · (next :: rest))
where
  /-- An argument that takes no other one with it. -/
  readFlag (options : Options) (arg : String) (goOn : Options → Command) : Command :=
    if arg = "--fail-fast" then goOn { options with failFast := true }
    else if arg = "--no-color" then goOn { options with color := false }
    else if arg = "-h" || arg = "--help" then .help
    else if arg.startsWith "-" then .misuse (.unknownOption arg)
    else goOn { options with files := options.files ++ [arg] }

/-- Why an input could not be read. -/
inductive InputFault
  | file (fault : FileFault)
  | encoding (fault : Text.Utf8.Fault)

def InputFault.message (path : String) : InputFault → String
  | file fault => fault.message path.toList
  | encoding fault => fault.message

/-- What a run does: it ends with a message, or it writes a listing and then says so. -/
inductive Action
  | finish (status : ExitStatus) (message : String)
  | write (path : String) (listing : String)

/-- Why a run ends in no regular way. -/
inductive Failure
  | compile (failure : CompileFailure)
  | listing (fault : Machine.UnknownPrimitive)
  | nullInPath
  | output (fault : FileFault) (path : String)

/-- The last line about an input with errors. -/
def summary (path : String) (result : CompileResult) : String :=
  if result.status = .unparsable then s!"{path}: parse failure\n"
  else
    let count := result.log.errors.length
    s!"{path}: {count} error(s)\n"

/-- The output path: that of the options unless it is empty. -/
def outputPath (path : String) (options : Options) : String :=
  match options.output with
  | some output => if output = "" then String.ofList (Path.listing path.toList) else output
  | none => String.ofList (Path.listing path.toList)

/-- Compiles the text of a file. Diagnostics show the absolute path. -/
def compileText (options : Options) (path absolute : String) (text : List Char) :
    Except Failure Action :=
  match JamCompiler.compile text options.failFast with
  | .error failure => .error (.compile failure)
  | .ok result =>
    match result.object with
    | some object =>
      match object.listing with
      | .ok listing => .ok (.write (outputPath path options) listing)
      | .error fault => .error (.listing fault)
    | none =>
      let palette := if options.color then Palette.terminal else Palette.plain
      let shown := result.log.render palette (some ⟨absolute, text⟩)
      .ok (.finish result.status (shown ++ summary path result))

/-- Compiles the bytes of a file, if they could be read. Line breaks of all kinds count as line
feeds. -/
def compileBytes (options : Options) (path absolute : String)
    (bytes : Except FileFault (List UInt8)) : Except Failure Action :=
  let text : Except InputFault (List Char) :=
    match bytes with
    | .error fault => .error (.file fault)
    | .ok bytes =>
      match Text.Utf8.decode bytes with
      | .error fault => .error (.encoding fault)
      | .ok text => .ok (Text.unifyBreaks text)
  match text with
  | .error fault =>
    let reason := fault.message path
    .ok (.finish .unreadable s!"error: cannot read '{path}': {reason}\n")
  | .ok text => compileText options path absolute text

/-- What is printed after a listing was written. -/
def writtenMessage (path : String) : String := s!"Wrote {path}\n"

/-- What the arguments ask for, on a terminal or not. -/
def Command.ofArgs (terminal : Bool) (args : List String) : Command :=
  readArgs { color := terminal } args

/-- A run on a file tree: what it prints, how it ends, and the tree after it. -/
structure Outcome where
  stdout : String
  result : Except Failure ExitStatus
  tree : FileTree

/-- Runs the compiler in the working directory of a file tree. A path with the null character can
name no file, and ends the run. -/
def run (tree : FileTree) (args : List String) : Outcome :=
  match Command.ofArgs false args with
  | .help => ⟨usage, .ok .success, tree⟩
  | .misuse misuse => ⟨misuse.message, .ok .usage, tree⟩
  | .compile file options =>
    let path := file.toList
    if Path.holdsNull path then ⟨"", .error .nullInPath, tree⟩
    else
      let absolute := String.ofList (Path.absolute tree.home path)
      match compileBytes options file absolute (tree.read path) with
      | .error failure => ⟨"", .error failure, tree⟩
      | .ok (.finish status message) => ⟨message, .ok status, tree⟩
      | .ok (.write output listing) =>
        if Path.holdsNull output.toList then ⟨"", .error .nullInPath, tree⟩
        else match tree.write output.toList listing.toUTF8.toList with
          | .ok after => ⟨writtenMessage output, .ok .success, after⟩
          | .error fault => ⟨"", .error (.output fault output), tree⟩

end JamCompiler.CommandLine

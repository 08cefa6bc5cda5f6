import JamCompiler.CommandLine

/-!
# The program

Runs the command line on the files of the system. Everything it decides is decided by
`JamCompiler.CommandLine`.
-/

namespace JamCompiler.Main

open CommandLine

/-- The system's code for an error, if it gives one. -/
def code? : IO.Error → Option UInt32
  | .noFileOrDirectory _ code _ | .inappropriateType _ code _ | .invalidArgument _ code _
  | .permissionDenied _ code _ => some code
  | _ => none

/-- The fault that an operation on a file ended with. Some operations give its number with the
sign turned. -/
def fileFault (e : IO.Error) : FileFault :=
  let known := do
    let code ← code? e
    FileFault.ofNumber? code.toNat <|> FileFault.ofNumber? (0 - code).toNat
  known.getD .missing

/-- The bytes of a file, or why it cannot be read. -/
def readBytes (path : String) : IO (Except FileFault (List UInt8)) := do
  try
    let bytes ← IO.FS.readBinFile path
    return .ok bytes.toList
  catch e => return .error (fileFault e)

/-- Writes a file, and answers why if it cannot be. -/
def writeText (path text : String) : IO (Option FileFault) := do
  try
    IO.FS.writeFile path text
    return none
  catch e => return some (fileFault e)

def fail (message : String) : IO UInt32 := do
  IO.eprintln message
  return 1

def run (args : List String) : IO UInt32 := do
  match Command.ofArgs (← (← IO.getStdout).isTty) args with
  | .help =>
    IO.print usage
    return 0
  | .misuse misuse =>
    IO.print misuse.message
    return ExitStatus.usage.code.toUInt32
  | .compile file options =>
    let home := Path.names (← IO.currentDir).toString.toList
    let absolute := String.ofList (Path.absolute home file.toList)
    match compileBytes options file absolute (← readBytes file) with
    | .error (.compile .longNumber) => fail "a number has too many digits"
    | .error (.compile .missingArgument) => fail "a call lacks its argument"
    | .error (.listing fault) => fail fault.message
    | .error .nullInPath => fail "a path holds the null character"
    | .error (.output fault path) => fail (fault.message path.toList)
    | .ok (.finish status message) =>
      IO.print message
      return status.code.toUInt32
    | .ok (.write output listing) =>
      match ← writeText output listing with
      | some fault => fail (fault.message output.toList)
      | none =>
        IO.print (writtenMessage output)
        return ExitStatus.success.code.toUInt32

end JamCompiler.Main

def main (args : List String) : IO UInt32 := JamCompiler.Main.run args

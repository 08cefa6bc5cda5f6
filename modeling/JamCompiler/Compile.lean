import JamCompiler.Generation
import JamCompiler.Program.Reading
import JamCompiler.Resolution
import JamCompiler.Typing

/-!
# Compiling

The whole way from source text to object code. Each stage runs only if the stages before it found
no error. A text that is no program gives one error and nothing else.
-/

namespace JamCompiler

/-- How a run of the compiler ends. -/
inductive ExitStatus
  | success
  | usage
  | unreadable
  | incorrect
  | unparsable
  deriving DecidableEq

def ExitStatus.code : ExitStatus → Nat
  | success => 0
  | usage => 2
  | unreadable => 3
  | incorrect => 4
  | unparsable => 5

/-- Why there is no result at all: a number is too long to be read, or the code for a call is
undefined. -/
inductive CompileFailure
  | longNumber
  | missingArgument
  deriving DecidableEq

structure CompileResult where
  status : ExitStatus
  log : Log
  compilation : Option Compilation := none
  object : Option ObjectCode := none

namespace CompileResult

/-- The result of a compilation that found errors. -/
def incorrect (c : Compilation) : CompileResult :=
  { status := .incorrect, log := c.log, compilation := some c }

/-- The result when a stage came to its end, or did not. -/
def afterStage {α : Type} (c : Compilation) (answer : Except Stop α)
    (next : α → Except CompileFailure CompileResult) : Except CompileFailure CompileResult :=
  match answer with
  | .error (.aborted _) => .ok (incorrect c)
  | .error .missingArgument => .error .missingArgument
  | .ok a => if c.log.isClean then next a else .ok (incorrect c)

end CompileResult

/-- Compiles a program. -/
def Program.compile (p : Program) (failFast : Bool) : Except CompileFailure CompileResult :=
  let start : Compilation := { program := p, log := { failFast := failFast } }
  let (resolved, _, answer) := start.resolve
  CompileResult.afterStage resolved answer fun _ =>
    let (checked, answer) := resolved.check
    CompileResult.afterStage checked answer fun _ =>
      let (generated, answer) := checked.generate
      CompileResult.afterStage generated answer fun object =>
        .ok { status := .success, log := generated.log, compilation := some generated
              object := some object }

/-- Compiles a text. An error that has no position is reported at the end of the text. -/
def compile (text : List Char) (failFast : Bool) : Except CompileFailure CompileResult :=
  match Program.ofText? text with
  | .error (.longNumber _) => .error .longNumber
  | .error (.fault fault pos) =>
    let log : Log := { failFast := failFast }
    .ok { status := .unparsable, log := log.addError (.source fault) (pos.getD text.length) }
  | .ok program => program.compile failFast

end JamCompiler

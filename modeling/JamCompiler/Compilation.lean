import JamCompiler.Diagnostic
import JamCompiler.Machine.Instruction

/-!
# Compilations

A program with what the stages have found out about it so far: to what declaration each name is
bound, the type of each expression and statement, where each declared thing lives at run time, and
the layout of each class. Each stage adds to its own part and reads the parts of others; entries
are never changed, so a stage can be run again.

A `Pass` is the work of a stage: it keeps a log and its own state, and it can stop early. What it
did before stopping stays done.
-/

namespace JamCompiler

/-- Where a declared thing lives at run time: a word of the static segment, a word of its object,
a word of the frame (parameters below zero, the linkage from zero, locals above it), or an address
of the code. -/
inductive Location
  | static (index : Nat)
  | object (index : Nat)
  | frame (offset : Int)
  | code (address : Nat)
  deriving DecidableEq

/-- The number of a class, and how many instance fields it has. -/
structure ClassLayout where
  number : Nat
  size : Nat
  deriving DecidableEq

structure Compilation where
  program : Program
  log : Log := {}
  bindings : SiteMap Decl := {}
  types : SiteMap ValueType := {}
  locations : SiteMap Location := {}
  layouts : SiteMap ClassLayout := {}

/-- Why a pass stops early: a fault that ends the compilation, which is in the log too, or a call
of `println` without an argument, for which there is no code. -/
inductive Stop
  | aborted (d : Diagnostic)
  | missingArgument
  deriving DecidableEq

/-- The log beside a stage's own state. -/
structure Work (σ : Type) where
  log : Log
  own : σ

abbrev Pass (σ : Type) (α : Type) := EStateM Stop (Work σ) α

namespace Pass

variable {σ α : Type}

/-- Ends the compilation with a fault. -/
def fatal (fault : Fault) (pos : Nat) : Pass σ α := do
  modify fun w => { w with log := w.log.addError fault pos }
  throw (.aborted ⟨.error, fault, pos⟩)

/-- Records an error and goes on, or ends the compilation if the first error is to end it. -/
def report (fault : Fault) (pos : Nat) : Pass σ Unit := do
  if (← get).log.failFast then fatal fault pos
  else modify fun w => { w with log := w.log.addError fault pos }

def note (fault : Fault) (pos : Nat) : Pass σ Unit :=
  modify fun w => { w with log := w.log.addNote fault pos }

def getOwn : Pass σ σ := return (← get).own

def modifyOwn (f : σ → σ) : Pass σ Unit := modify fun w => { w with own := f w.own }

/-- Runs a pass: the state it leaves, its answer if it came to its end, and else why not. -/
def run (pass : Pass σ α) (log : Log) (own : σ) : Work σ × Except Stop α :=
  match EStateM.run pass ⟨log, own⟩ with
  | .ok a w => (w, .ok a)
  | .error stop w => (w, .error stop)

end Pass

end JamCompiler

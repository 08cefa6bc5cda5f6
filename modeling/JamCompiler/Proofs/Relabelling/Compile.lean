import JamCompiler.Proofs.Binding
import JamCompiler.Proofs.Relabelling.Generation
import JamCompiler.Proofs.Relabelling.Typing

/-!
# Compiling relabelled programs

A stage starts from what the stages before it found, so the stages in order do the same on a program
relabelled in two ways. The compilations end with the same status, the same faults at corresponding
positions and, if there are none, the same object code.
-/

namespace JamCompiler

open Pass

/-- A compilation relabelled, with a log that goes with it. -/
def Compilation.relabel (ρ : Relabelling) (c : Compilation) (log : Log) : Compilation where
  program := c.program.relabel ρ.written
  log := log
  bindings := c.bindings.map (Decl.relabel ρ)
  types := relabelTypes ρ c.types
  locations := c.locations
  layouts := c.layouts

def ObjectCode.relabel? (ρ : Relabelling) : Option ObjectCode → Option ObjectCode :=
  Option.map (ObjectCode.relabel ρ)

/-- Results of compiling the same program relabelled in two ways. -/
structure CompileResult.Alike (ρ ρ' : Relabelling) (r r' : CompileResult) : Prop where
  status : r.status = r'.status
  logs : r.log.Alike ρ ρ' r'.log
  object : ∃ o, r.object = ObjectCode.relabel? ρ o ∧ r'.object = ObjectCode.relabel? ρ' o

/-- The same for runs that may have no result. -/
inductive EndsAlike (ρ ρ' : Relabelling) :
    Except CompileFailure CompileResult → Except CompileFailure CompileResult → Prop
  | ok {r r' : CompileResult} (alike : r.Alike ρ ρ' r') : EndsAlike ρ ρ' (.ok r) (.ok r')
  | error (failure : CompileFailure) : EndsAlike ρ ρ' (.error failure) (.error failure)

/-- What a stage leaves of compilations alike, with its answers. -/
inductive StageAlike (ρ ρ' : Relabelling) {α γ : Type} (answer : Relabelling → γ → α) :
    Compilation × Except Stop α → Compilation × Except Stop α → Prop
  | ok (c : Compilation) (a : γ) {log log' : Log} (logs : log.Alike ρ ρ' log') :
    StageAlike ρ ρ' answer (c.relabel ρ log, .ok (answer ρ a))
      (c.relabel ρ' log', .ok (answer ρ' a))
  | error (c : Compilation) {stop stop' : Stop} (stops : stop.Alike ρ ρ' stop') {log log' : Log}
    (logs : log.Alike ρ ρ' log') :
    StageAlike ρ ρ' answer (c.relabel ρ log, .error stop) (c.relabel ρ' log', .error stop')

variable {ρ ρ' : Relabelling}

namespace Compilation

variable (c : Compilation) {log log' : Log}

theorem resolve_relabel (fresh : c.bindings = {}) (logs : log.Alike ρ ρ' log') :
    StageAlike ρ ρ' unchanged
      ((c.relabel ρ log).resolve.1, (c.relabel ρ log).resolve.2.2)
      ((c.relabel ρ' log').resolve.1, (c.relabel ρ' log').resolve.2.2) := by
  have ends := Resolving.mirrors_resolve c.program {} log log' logs
  have start : ∀ ρ, (Naming.mk {} (c.bindings.map (Decl.relabel ρ))) = Naming.relabel ρ {} := by
    intro ρ
    rw [fresh]
    rfl
  simp only [resolve, runResolving, relabel, Pass.run, start]
  generalize EStateM.run (Resolving.resolve (c.program.relabel ρ.written)) _ = r at ends ⊢
  generalize EStateM.run (Resolving.resolve (c.program.relabel ρ'.written)) _ = r' at ends ⊢
  cases ends with
  | ok a n logs => exact .ok { c with bindings := n.bindings } a logs
  | error n stops logs => exact .error { c with bindings := n.bindings } stops logs

theorem check_relabel (logs : log.Alike ρ ρ' log') :
    StageAlike ρ ρ' unchanged (c.relabel ρ log).check (c.relabel ρ' log').check := by
  have ends := Typing.mirrors_check c.bindings.get? c.program c.types log log' logs
  simp only [check, relabel, Pass.run, SiteMap.get?_relabel]
  generalize EStateM.run (Typing.check _ (c.program.relabel ρ.written)) _ = r at ends ⊢
  generalize EStateM.run (Typing.check _ (c.program.relabel ρ'.written)) _ = r' at ends ⊢
  cases ends with
  | ok a types logs => exact .ok { c with types := types } a logs
  | error types stops logs => exact .error { c with types := types } stops logs

theorem generate_relabel (logs : log.Alike ρ ρ' log') :
    StageAlike ρ ρ' ObjectCode.relabel (c.relabel ρ log).generate (c.relabel ρ' log').generate := by
  have ends := Generation.mirrors_generate c.bindings.get? ⟨c.program, ⟨c.locations, c.layouts⟩⟩
    log log' logs
  simp only [generate, relabel, Pass.run, SiteMap.get?_relabel]
  simp only [Generation.State.relabel] at ends
  generalize EStateM.run (Generation.generate (relabelBound ρ _)) _ = r at ends ⊢
  generalize EStateM.run (Generation.generate (relabelBound ρ' _)) _ = r' at ends ⊢
  cases ends with
  | ok object s logs =>
    exact .ok { c with
      program := s.program, locations := s.placing.locations, layouts := s.placing.layouts } object
      logs
  | error s stops logs =>
    exact .error { c with
      program := s.program, locations := s.placing.locations, layouts := s.placing.layouts } stops
      logs

end Compilation

/-- After stages that do the same, what follows does. -/
theorem StageAlike.afterStage {α γ : Type} {answer : Relabelling → γ → α}
    {s s' : Compilation × Except Stop α} (h : StageAlike ρ ρ' answer s s')
    (next : Compilation → α → Except CompileFailure CompileResult)
    (after : ∀ (c : Compilation) a {log log' : Log}, log.Alike ρ ρ' log' → EndsAlike ρ ρ'
      (next (c.relabel ρ log) (answer ρ a)) (next (c.relabel ρ' log') (answer ρ' a))) :
    EndsAlike ρ ρ' (CompileResult.afterStage s.1 s.2 (next s.1))
      (CompileResult.afterStage s'.1 s'.2 (next s'.1)) := by
  cases h with
  | error c stops logs =>
    cases stops with
    | aborted => exact .ok ⟨rfl, logs, none, rfl, rfl⟩
    | missingArgument => exact .error .missingArgument
  | @ok c a log log' logs =>
    have clean : (c.relabel ρ log).log.isClean = (c.relabel ρ' log').log.isClean := logs.isClean
    simp only [CompileResult.afterStage, clean]
    split
    · exact after c a logs
    · exact .ok ⟨rfl, logs, none, rfl, rfl⟩

/-- The way from a checked compilation. -/
def Compilation.afterCheck (c : Compilation) : Except CompileFailure CompileResult :=
  CompileResult.afterStage c.generate.1 c.generate.2 fun object =>
    .ok { status := .success, log := c.generate.1.log, compilation := some c.generate.1
          object := some object }

/-- The way from a resolved compilation. -/
def Compilation.afterResolve (c : Compilation) : Except CompileFailure CompileResult :=
  CompileResult.afterStage c.check.1 c.check.2 fun _ => c.check.1.afterCheck

theorem Program.compile_eq (p : Program) (failFast : Bool) :
    p.compile failFast =
      CompileResult.afterStage (p.start failFast).resolve.1 (p.start failFast).resolve.2.2
        fun _ => (p.start failFast).resolve.1.afterResolve := by
  simp only [compile, start, Compilation.afterResolve, Compilation.afterCheck]

theorem Compilation.afterCheck_relabel (c : Compilation) {log log' : Log}
    (logs : log.Alike ρ ρ' log') :
    EndsAlike ρ ρ' (c.relabel ρ log).afterCheck (c.relabel ρ' log').afterCheck :=
  (c.generate_relabel logs).afterStage (fun c object => .ok ⟨.success, c.log, some c, some object⟩)
    fun _ object _ _ logs => .ok ⟨rfl, logs, some object, rfl, rfl⟩

theorem Compilation.afterResolve_relabel (c : Compilation) {log log' : Log}
    (logs : log.Alike ρ ρ' log') :
    EndsAlike ρ ρ' (c.relabel ρ log).afterResolve (c.relabel ρ' log').afterResolve :=
  (c.check_relabel logs).afterStage (fun c _ => c.afterCheck)
    fun c _ _ _ logs => c.afterCheck_relabel logs

/-- A program compiles to the same whichever way it is relabelled. -/
theorem Program.compile_relabel (p : Program) (failFast : Bool) :
    EndsAlike ρ ρ' ((p.relabel ρ.written).compile failFast)
      ((p.relabel ρ'.written).compile failFast) := by
  have logs : Log.Alike ρ ρ' { failFast := failFast } { failFast := failFast } := ⟨rfl, .nil, .nil⟩
  have start : ∀ ρ : Relabelling, (p.relabel ρ.written).start failFast =
      (p.start failFast).relabel ρ { failFast := failFast } := fun _ => rfl
  have ends := ((p.start failFast).resolve_relabel rfl logs).afterStage (fun c _ => c.afterResolve)
    fun c _ _ _ logs => c.afterResolve_relabel logs
  rw [compile_eq, compile_eq, start, start]
  simpa only using ends

end JamCompiler

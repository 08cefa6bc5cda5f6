import JamCompiler.Proofs.Accepted
import JamCompiler.Proofs.Relabelling.Compile

/-!
# Stopping at the first error

A compilation that is to stop at the first error does the same as one that goes on, up to the first
error. There it is cut off: what it has recorded by then is the beginning of what the other one
records.

No pass looks at the errors it has recorded, so the runs of a pass in the two modes can be followed
side by side along the steps that it is put together from, and then the stages in order.
-/

namespace JamCompiler

namespace Log

/-- A log without errors. -/
def noted (failFast : Bool) (notes : List Diagnostic) : Log :=
  { failFast := failFast, notes := notes }

/-- What is recorded when the first error ends a run, against what a run that goes on records. -/
structure CutAt (d : Diagnostic) (fast slow : Log) : Prop where
  only : fast.errors = [d]
  first : slow.errors.head? = some d
  notes : fast.notes <+: slow.notes

/-- Going on only adds to a log. -/
theorem CutAt.append {d : Diagnostic} {fast slow : Log} (h : fast.CutAt d slow) (more : Log) :
    fast.CutAt d (slow.append more) where
  only := h.only
  first := by rw [Log.append, List.head?_append, h.first, Option.some_or]
  notes := h.notes.trans (List.prefix_append _ _)

end Log

namespace Pass

variable {σ α : Type}

/-- The log that a run leaves. -/
def logOf : EStateM.Result Stop (Work σ) α → Log
  | .ok _ w | .error _ w => w.log

/-- A run that the first error ends, against one that goes on: they find no error and do the same,
or the one is cut off at the other's first error. -/
inductive Truncates :
    EStateM.Result Stop (Work σ) α → EStateM.Result Stop (Work σ) α → Prop
  | ended (a : α) (s : σ) (notes : List Diagnostic) :
    Truncates (.ok a ⟨.noted true notes, s⟩) (.ok a ⟨.noted false notes, s⟩)
  | missing (s : σ) (notes : List Diagnostic) :
    Truncates (.error .missingArgument ⟨.noted true notes, s⟩)
      (.error .missingArgument ⟨.noted false notes, s⟩)
  | cut {d : Diagnostic} {w : Work σ} {slow : EStateM.Result Stop (Work σ) α}
    (h : w.log.CutAt d (logOf slow)) : Truncates (.error (.aborted d) w) slow

variable {R : Fault → Prop} {S : Option Fault → Prop} {x : Pass σ α}

/-- A run adds something to its log. -/
theorem Plain.logOf_run (h : Plain R S x) (w : Work σ) :
    ∃ more, logOf (EStateM.run x w) = w.log.append more := by
  obtain ⟨log, s⟩ := w
  rw [h.run_append log s]
  cases EStateM.run x ⟨{ failFast := log.failFast }, s⟩ with
  | ok a v => exact ⟨v.log, rfl⟩
  | error stop v => exact ⟨v.log, rfl⟩

/-- The first error cuts off what a pass does otherwise. -/
theorem Plain.truncates (h : Plain R S x) (notes : List Diagnostic) (s : σ) :
    Truncates (EStateM.run x ⟨.noted true notes, s⟩) (EStateM.run x ⟨.noted false notes, s⟩) := by
  induction h generalizing notes with
  | pure a => exact .ended a s notes
  | getOwn => exact .ended s s notes
  | modifyOwn f => exact .ended () (f s) notes
  | note fault pos => exact .ended () s _
  | missing => exact .missing s notes
  | fatal pos => exact .cut ⟨rfl, rfl, List.prefix_rfl⟩
  | report pos =>
    rw [run_report, run_report]
    exact .cut ⟨rfl, rfl, List.prefix_rfl⟩
  | within get set _ ih =>
    have inner := ih notes (get s)
    rw [run_within, run_within]
    generalize EStateM.run _ (⟨.noted true notes, _⟩ : Work _) = fast at inner ⊢
    generalize EStateM.run _ (⟨.noted false notes, _⟩ : Work _) = slow at inner ⊢
    cases inner with
    | ended a t notes' => exact .ended a (set s t) notes'
    | missing t notes' => exact .missing (set s t) notes'
    | cut cut => cases slow <;> exact .cut cut
  | @bind _ α β x f hx hf ihx ihf =>
    have first := ihx notes s
    rw [EStateM.run_bind, EStateM.run_bind]
    generalize EStateM.run x ⟨.noted true notes, s⟩ = fast at first ⊢
    generalize EStateM.run x ⟨.noted false notes, s⟩ = slow at first ⊢
    cases first with
    | ended a s' notes' => exact ihf a notes' s'
    | missing s' notes' => exact .missing s' notes'
    | cut cut =>
      -- the run that goes on may do more, and record more
      cases slow with
      | error stop w => exact .cut cut
      | ok a w =>
        obtain ⟨more, added⟩ := (hf a).logOf_run w
        refine .cut ?_
        dsimp only
        rw [added]
        exact cut.append more

end Pass

/-- A compilation with another log. -/
def Compilation.onLog (c : Compilation) (log : Log) : Compilation := { c with log := log }

/-- A stage that the first error ends, against one that goes on. -/
inductive StageTruncates {α : Type} :
    Compilation × Except Stop α → Compilation × Except Stop α → Prop
  | ended (c : Compilation) (a : α) (notes : List Diagnostic) :
    StageTruncates (c.onLog (.noted true notes), .ok a) (c.onLog (.noted false notes), .ok a)
  | missing (c : Compilation) (notes : List Diagnostic) :
    StageTruncates (c.onLog (.noted true notes), .error .missingArgument)
      (c.onLog (.noted false notes), .error .missingArgument)
  | cut {d : Diagnostic} {c c' : Compilation} (answer : Except Stop α) (h : c.log.CutAt d c'.log) :
    StageTruncates (c, .error (.aborted d)) (c', answer)

/-- A stage that runs a pass is cut off where the pass is. -/
theorem Pass.Plain.stage_truncates {σ α : Type} {R : Fault → Prop} {S : Option Fault → Prop}
    {x : Pass σ α} (h : Plain R S x) (notes : List Diagnostic) (s : σ) (put : σ → Compilation) :
    let fast := x.run (.noted true notes) s
    let slow := x.run (.noted false notes) s
    StageTruncates ((put fast.1.own).onLog fast.1.log, fast.2)
      ((put slow.1.own).onLog slow.1.log, slow.2) := by
  have runs := h.truncates notes s
  unfold Pass.run
  generalize EStateM.run x ⟨.noted true notes, s⟩ = fast at runs ⊢
  generalize EStateM.run x ⟨.noted false notes, s⟩ = slow at runs ⊢
  cases runs with
  | ended a s notes => exact .ended (put s) a notes
  | missing s notes => exact .missing (put s) notes
  | cut h => cases slow <;> exact .cut _ h

namespace Compilation

variable (c : Compilation) (notes : List Diagnostic)

theorem resolve_truncates :
    StageTruncates ((c.onLog (.noted true notes)).resolve.1,
      (c.onLog (.noted true notes)).resolve.2.2)
      ((c.onLog (.noted false notes)).resolve.1, (c.onLog (.noted false notes)).resolve.2.2) := by
  have stage := (Resolving.names_resolve c.program).stage_truncates notes { bindings := c.bindings }
    fun n => { c with bindings := n.bindings }
  simpa only [resolve, runResolving, onLog] using stage

theorem check_truncates :
    StageTruncates (c.onLog (.noted true notes)).check (c.onLog (.noted false notes)).check :=
  (Typing.plain_check c.bindings.get? c.program).stage_truncates notes c.types
    fun types => { c with types := types }

theorem generate_truncates :
    StageTruncates (c.onLog (.noted true notes)).generate (c.onLog (.noted false notes)).generate :=
  (Generation.codes_generate c.bindings.get?).stage_truncates notes
    ⟨c.program, ⟨c.locations, c.layouts⟩⟩ fun s => { c with
      program := s.program, locations := s.placing.locations, layouts := s.placing.layouts }

end Compilation

/-- The result of a compilation that the first error ends, against that of one that goes on. -/
structure CompileResult.Truncates (fast slow : CompileResult) : Prop where
  status : fast.status = slow.status
  object : fast.status = .success → ∃ o, fast.object = some o ∧ slow.object = some o
  errors : fast.status ≠ .success → ∃ d, fast.log.CutAt d slow.log

/-- The same for runs that may have no result. -/
def EndsTruncated (x y : Except CompileFailure CompileResult) : Prop :=
  ∀ fast slow, x = .ok fast → y = .ok slow → fast.Truncates slow

theorem CompileResult.Truncates.ends {fast slow : CompileResult} (h : fast.Truncates slow) :
    EndsTruncated (.ok fast) (.ok slow) := by
  intro _ _ hf hs
  cases hf
  cases hs
  exact h

/-- After stages of which one may be cut off, what follows may be. -/
theorem StageTruncates.afterStage {α : Type} {s s' : Compilation × Except Stop α}
    (h : StageTruncates s s') (next : Compilation → α → Except CompileFailure CompileResult)
    (after : ∀ (c : Compilation) a notes, EndsTruncated (next (c.onLog (.noted true notes)) a)
      (next (c.onLog (.noted false notes)) a)) :
    EndsTruncated (CompileResult.afterStage s.1 s.2 (next s.1))
      (CompileResult.afterStage s'.1 s'.2 (next s'.1)) := by
  cases h with
  | ended c a notes => exact after c a notes
  | missing => exact fun _ _ _ hs => nomatch hs
  | @cut d c c' answer h =>
    have dirty : c'.log.isClean = false := by
      have first := h.first
      unfold Log.isClean
      cases errors : c'.log.errors with
      | nil => rw [errors] at first; cases first
      | cons => rfl
    have stopped : (CompileResult.incorrect c).Truncates (CompileResult.incorrect c') :=
      ⟨rfl, fun ok => (nomatch ok), fun _ => ⟨d, h⟩⟩
    match answer with
    | .error .missingArgument => exact fun _ _ _ hs => nomatch hs
    | .error (.aborted _) => exact stopped.ends
    | .ok a =>
      simp only [CompileResult.afterStage, dirty]
      exact stopped.ends

theorem Compilation.afterCheck_truncates (c : Compilation) (notes : List Diagnostic) :
    EndsTruncated (c.onLog (.noted true notes)).afterCheck
      (c.onLog (.noted false notes)).afterCheck :=
  (c.generate_truncates notes).afterStage
    (fun c object => .ok ⟨.success, c.log, some c, some object⟩) fun _ object _ =>
      CompileResult.Truncates.ends ⟨rfl, fun _ => ⟨object, rfl, rfl⟩, fun other => absurd rfl other⟩

theorem Compilation.afterResolve_truncates (c : Compilation) (notes : List Diagnostic) :
    EndsTruncated (c.onLog (.noted true notes)).afterResolve
      (c.onLog (.noted false notes)).afterResolve :=
  (c.check_truncates notes).afterStage (fun c _ => c.afterCheck)
    fun c _ notes => c.afterCheck_truncates notes

theorem Program.compile_truncates (p : Program) :
    EndsTruncated (p.compile true) (p.compile false) := by
  obtain ⟨c, start⟩ :
      ∃ c : Compilation, ∀ failFast, p.start failFast = c.onLog (.noted failFast []) :=
    ⟨p.start false, fun _ => rfl⟩
  have ends := (c.resolve_truncates []).afterStage (fun c _ => c.afterResolve)
    fun c _ notes => c.afterResolve_truncates notes
  rw [compile_eq, compile_eq, start, start]
  simpa only using ends

/-- A compilation that the first error ends has the same status as one that goes on, and the same
object code if there is any; otherwise its only error is the other's first, and its notes are the
first ones of the other's. -/
theorem fail_fast_truncates {text : List Char} {fast slow : CompileResult}
    (stopping : compile text true = .ok fast) (goingOn : compile text false = .ok slow) :
    fast.Truncates slow := by
  unfold compile at stopping goingOn
  cases parsed : Program.ofText? text with
  | ok p =>
    rw [parsed] at stopping goingOn
    exact p.compile_truncates fast slow stopping goingOn
  | error e =>
    rw [parsed] at stopping goingOn
    cases e with
    | longNumber pos => cases stopping
    | fault fault pos =>
      cases stopping
      cases goingOn
      exact ⟨rfl, fun ok => (nomatch ok), fun _ => ⟨_, rfl, rfl, List.prefix_rfl⟩⟩

/-- A member declared twice, which is noted, and then a name that is not declared and another member
declared twice. -/
def threeErrorsText : List Char :=
  ("class A \x7b int x; int x; void f() \x7b y = 1; \x7d \x7d " ++
    "class B \x7b int x; boolean x; \x7d").toList

theorem threeErrorsText_truncates : ∃ fast slow, compile threeErrorsText true = .ok fast ∧
    compile threeErrorsText false = .ok slow ∧ slow.log.errors.length = 3 ∧
    slow.log.notes.length = 2 ∧ fast.status = .incorrect ∧ fast.Truncates slow := by
  obtain ⟨fast, stopping, incorrect⟩ := exists_ok_of_any (x := compile threeErrorsText true)
    (P := fun r => r.status = .incorrect) (by decide +kernel)
  obtain ⟨slow, goingOn, several⟩ := exists_ok_of_any (x := compile threeErrorsText false)
    (P := fun r => r.log.errors.length = 3 && r.log.notes.length = 2) (by decide +kernel)
  obtain ⟨errors, notes⟩ := Bool.and_eq_true_iff.mp several
  exact ⟨fast, slow, stopping, goingOn, of_decide_eq_true errors, of_decide_eq_true notes,
    of_decide_eq_true incorrect, fail_fast_truncates stopping goingOn⟩

end JamCompiler

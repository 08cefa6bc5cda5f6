import JamCompiler.Proofs.Generating
import JamCompiler.Proofs.Relabelling.Compile

/-!
# Results of compilations

What a result says about a text, whichever mode it was compiled in. A text that is read has a
result; it is one of success exactly if no error was recorded, and only then there is object code.
The errors of any other result were recorded by one stage: by the reading of the text, which then
gives one error and no program, or by the first stage that recorded any.
-/

namespace JamCompiler

open Pass

theorem CompileResult.exists_of_afterStage {α : Type} {c : Compilation} {answer : Except Stop α}
    {next : α → Except CompileFailure CompileResult} (finished : answer ≠ .error .missingArgument)
    (after : ∀ a, answer = .ok a → c.log.isClean → ∃ r, next a = .ok r) :
    ∃ r, afterStage c answer next = .ok r := by
  cases answer with
  | error stop =>
    cases stop with
    | aborted d => exact ⟨_, rfl⟩
    | missingArgument => exact absurd rfl finished
  | ok a =>
    simp only [afterStage]
    split
    · rename_i clean
      exact after a rfl clean
    · exact ⟨_, rfl⟩

theorem Compilation.resolve_finished (c : Compilation) :
    c.resolve.2.2 ≠ .error .missingArgument := by
  intro missing
  simp only [resolve, runResolving, Pass.run] at missing
  split at missing
  · cases missing
  · rename_i stop w stopped
    cases missing
    obtain ⟨f, ⟨⟩⟩ := (Resolving.names_resolve c.program).missed stopped

theorem Compilation.check_finished (c : Compilation) : c.check.2 ≠ .error .missingArgument := by
  intro missing
  simp only [check, Pass.run] at missing
  split at missing
  · cases missing
  · rename_i stop w stopped
    cases missing
    obtain ⟨⟨⟩, -⟩ | ⟨-, f, ⟨⟩, -⟩ := (Typing.plain_check c.bindings.get? c.program).missed stopped

/-- Where all checks are passed, no call lacks an argument. -/
theorem Compilation.generate_finished {c : Compilation} (passed : c.program.Checked c.bindings.get?)
    (locations : c.locations = {}) (layouts : c.layouts = {}) :
    c.generate.2 ≠ .error .missingArgument := by
  have concludes := Generation.concludes_generate passed
  intro missing
  simp only [generate, Pass.run, locations, layouts] at missing
  by_cases generable : c.program.Generable
  · obtain ⟨o, s', ran, -⟩ := concludes.ends generable c.log
    rw [ran] at missing
    cases missing
  · obtain ⟨fault, pos, s', -, ran⟩ := concludes.stops generable c.log
    rw [ran] at missing
    cases missing

/-- A text that is read has a result. -/
theorem exists_compile {text : List Char} {p : Program} (parsed : Program.ofText? text = .ok p)
    (failFast : Bool) : ∃ r, compile text failFast = .ok r := by
  have whole : compile text failFast = p.compile failFast := by rw [compile, parsed]
  rw [whole, Program.compile_eq]
  refine CompileResult.exists_of_afterStage (Compilation.resolve_finished _) fun _ ended clean => ?_
  cases resolved : (p.start failFast).resolve with
  | mk c rest =>
    obtain ⟨t, answer⟩ := rest
    rw [resolved] at ended clean
    cases ended
    refine CompileResult.exists_of_afterStage c.check_finished fun _ ended₁ clean₁ => ?_
    have checked : c.check = (c.check.1, .ok ()) := Prod.ext rfl ended₁
    obtain ⟨passed, program, locations, layouts⟩ :=
      Program.checked_of_stages parsed resolved clean checked clean₁
    refine CompileResult.exists_of_afterStage ?_ fun object _ _ => ⟨_, rfl⟩
    exact Compilation.generate_finished (program.symm ▸ passed) locations layouts

/-- The stages that a program goes through, in their order. -/
inductive Stage
  | resolution
  | typing
  | generation

namespace Stage

/-- The faults that a stage records. -/
inductive Records : Stage → Fault → Prop
  | naming (f : NameFault) : Records .resolution (.naming f)
  | typing (f : TypeFault) : Records .typing (.typing f)
  | code (f : CodeFault) : Records .generation (.code f)

/-- What a stage leaves of a program when the stages before it recorded no error. -/
inductive Leaves (p : Program) (failFast : Bool) : Stage → Compilation → Prop
  | resolution {c : Compilation} {t : ScopeTable} {answer : Except Stop Unit}
    (resolved : (p.start failFast).resolve = (c, t, answer)) : Leaves p failFast .resolution c
  | typing {c c₁ : Compilation} {t : ScopeTable} {answer : Except Stop Unit}
    (resolved : (p.start failFast).resolve = (c, t, .ok ())) (clean : c.log.isClean)
    (checked : c.check = (c₁, answer)) : Leaves p failFast .typing c₁
  | generation {c c₁ c₂ : Compilation} {t : ScopeTable} {answer : Except Stop ObjectCode}
    (resolved : (p.start failFast).resolve = (c, t, .ok ())) (clean : c.log.isClean)
    (checked : c.check = (c₁, .ok ())) (clean₁ : c₁.log.isClean)
    (generated : c₁.generate = (c₂, answer)) : Leaves p failFast .generation c₂

end Stage

/-- A pass that a fault stops has recorded it. -/
theorem Pass.Plain.dirty_of_aborted {σ α : Type} {R : Fault → Prop} {S : Option Fault → Prop}
    {x : Pass σ α} (h : Plain R S x) {log : Log} {s : σ} {w : Work σ} {d : Diagnostic}
    (run : x.run log s = (w, .error (.aborted d))) : ¬ w.log.isClean := by
  unfold Pass.run at run
  split at run
  · cases run
  · rename_i stop v stopped
    cases run
    obtain ⟨more, errors, -⟩ := h.aborted stopped
    simp [Log.isClean, errors]

namespace Compilation

variable {c c' : Compilation} {d : Diagnostic}

/-- Resolution adds faults of names to the errors, and at least one if it is stopped. -/
theorem resolve_records {t : ScopeTable} {answer : Except Stop Unit}
    (resolved : c.resolve = (c', t, answer)) :
    (∀ d ∈ c'.log.errors, d ∈ c.log.errors ∨ Stage.resolution.Records d.fault) ∧
      ∀ d, answer = .error (.aborted d) → ¬ c'.log.isClean := by
  have names := Resolving.names_resolve c.program
  have finished := c.resolve_finished
  rw [resolved] at finished
  obtain ⟨w, run, -, rfl⟩ := run_of_resolve resolved
  refine ⟨fun d hd => ?_, fun d stopped => names.dirty_of_aborted (stopped ▸ run)⟩
  rcases names.recorded run finished d hd with old | ⟨f, fault⟩ | ⟨f, fault⟩
  · exact .inl old
  · exact .inr (fault ▸ .naming f)
  · exact .inr (Option.some.inj fault ▸ .naming f)

/-- Typing adds faults of types to the errors, and at least one if it is stopped. -/
theorem check_records {answer : Except Stop Unit} (checked : c.check = (c', answer)) :
    (∀ d ∈ c'.log.errors, d ∈ c.log.errors ∨ Stage.typing.Records d.fault) ∧
      ∀ d, answer = .error (.aborted d) → ¬ c'.log.isClean := by
  have types := Typing.plain_check c.bindings.get? c.program
  have finished := c.check_finished
  rw [checked] at finished
  obtain ⟨w, run, rfl⟩ := run_of_check checked
  refine ⟨fun d hd => ?_, fun d stopped => types.dirty_of_aborted (stopped ▸ run)⟩
  rcases types.recorded run finished d hd with
    old | ⟨f, fault, -⟩ | ⟨unresolved, -⟩ | ⟨-, f, fault, -⟩
  · exact .inl old
  · exact .inr (fault ▸ .typing f)
  · exact .inr (Option.some.inj unresolved ▸ .typing _)
  · exact .inr (Option.some.inj fault ▸ .typing f)

/-- Where all checks are passed, generation adds no error if it comes to its end, and one fault of
code otherwise. -/
theorem generate_records (passed : c.program.Checked c.bindings.get?) (locations : c.locations = {})
    (layouts : c.layouts = {}) {answer : Except Stop ObjectCode}
    (generated : c.generate = (c', answer)) :
    (∃ o, answer = .ok o) ∧ c'.log = c.log ∨
      ∃ f pos, f.Expected ∧ answer = .error (.aborted ⟨.error, .code f, pos⟩) ∧
        c'.log = c.log.addError (.code f) pos := by
  have concludes := Generation.concludes_generate passed
  simp only [generate, locations, layouts, Pass.run] at generated
  by_cases generable : c.program.Generable
  · obtain ⟨o, s', ran, -⟩ := concludes.ends generable c.log
    rw [ran] at generated
    cases generated
    exact .inl ⟨⟨o, rfl⟩, rfl⟩
  · obtain ⟨_, pos, s', ⟨f, rfl, expected⟩, ran⟩ := concludes.stops generable c.log
    rw [ran] at generated
    cases generated
    exact .inr ⟨f, pos, expected, rfl, rfl⟩

end Compilation

namespace Stage

variable {text : List Char} {p : Program} {failFast : Bool} {stage : Stage} {c : Compilation}

/-- The errors in what a stage leaves are its own, and generation leaves at most one. -/
theorem Leaves.records (parsed : Program.ofText? text = .ok p) (h : stage.Leaves p failFast c) :
    (∀ d ∈ c.log.errors, stage.Records d.fault) ∧
      (stage = .generation → c.log.errors.length ≤ 1) := by
  cases h with
  | resolution resolved =>
    refine ⟨fun d hd => ?_, nofun⟩
    exact ((Compilation.resolve_records resolved).1 d hd).resolve_left List.not_mem_nil
  | typing resolved clean checked =>
    refine ⟨fun d hd => ?_, nofun⟩
    refine ((Compilation.check_records checked).1 d hd).resolve_left ?_
    rw [List.isEmpty_iff.mp clean]
    exact List.not_mem_nil
  | generation resolved clean checked clean₁ generated =>
    obtain ⟨passed, program, locations, layouts⟩ :=
      Program.checked_of_stages parsed resolved clean checked clean₁
    have none := List.isEmpty_iff.mp clean₁
    rcases Compilation.generate_records (program.symm ▸ passed) locations layouts generated with
      ⟨-, same⟩ | ⟨f, pos, -, -, one⟩
    · rw [same, none]
      exact ⟨nofun, fun _ => Nat.zero_le 1⟩
    · have only : c.log.errors = [⟨.error, .code f, pos⟩] := by rw [one, Log.addError, none]; rfl
      rw [only]
      exact ⟨List.forall_mem_singleton.mpr (.code f), fun _ => Nat.le_refl 1⟩

end Stage

/-- What a program compiles to: object code, when no stage recorded an error, or what the first
stage that recorded one has left. -/
inductive Program.CompilesTo (p : Program) (failFast : Bool) : CompileResult → Prop
  | incorrect {stage : Stage} {c : Compilation} (leaves : stage.Leaves p failFast c)
    (dirty : ¬ c.log.isClean) : CompilesTo p failFast (.incorrect c)
  | success {c : Compilation} (o : ObjectCode) (leaves : Stage.generation.Leaves p failFast c)
    (clean : c.log.isClean) : CompilesTo p failFast
      { status := .success, log := c.log, compilation := some c, object := some o }

/-- A result after a stage that records what stops it: that of the stage, if it recorded an error,
or that of the stages after it. -/
theorem CompileResult.dirty_of_afterStage {α : Type} {c : Compilation} {answer : Except Stop α}
    {next : α → Except CompileFailure CompileResult} {r : CompileResult}
    (h : afterStage c answer next = .ok r)
    (stopped : ∀ d, answer = .error (.aborted d) → ¬ c.log.isClean) :
    r = incorrect c ∧ ¬ c.log.isClean ∨ ∃ a, answer = .ok a ∧ c.log.isClean ∧ next a = .ok r := by
  obtain ⟨finished, rfl | goesOn⟩ := of_afterStage h
  · match answer with
    | .error .missingArgument => exact absurd rfl finished
    | .error (.aborted d) => exact .inl ⟨rfl, stopped d rfl⟩
    | .ok a =>
      by_cases clean : c.log.isClean
      · exact .inr ⟨a, rfl, clean, by rwa [afterStage, if_pos clean] at h⟩
      · exact .inl ⟨rfl, clean⟩
  · exact .inr goesOn

theorem Program.compilesTo_of_compile {text : List Char} {p : Program} {failFast : Bool}
    {r : CompileResult} (parsed : Program.ofText? text = .ok p) (h : p.compile failFast = .ok r) :
    p.CompilesTo failFast r := by
  rw [compile_eq] at h
  cases resolved : (p.start failFast).resolve with
  | mk c rest =>
    obtain ⟨t, answer⟩ := rest
    rw [resolved] at h
    obtain ⟨rfl, dirty⟩ | ⟨⟨⟩, rfl, clean, h⟩ :=
      CompileResult.dirty_of_afterStage h (Compilation.resolve_records resolved).2
    · exact .incorrect (.resolution resolved) dirty
    cases checked : c.check with
    | mk c₁ answer =>
      simp only [Compilation.afterResolve, checked] at h
      obtain ⟨rfl, dirty⟩ | ⟨⟨⟩, rfl, clean₁, h⟩ :=
        CompileResult.dirty_of_afterStage h (Compilation.check_records checked).2
      · exact .incorrect (.typing resolved clean checked) dirty
      obtain ⟨passed, program, locations, layouts⟩ :=
        Program.checked_of_stages parsed resolved clean checked clean₁
      cases generated : c₁.generate with
      | mk c₂ answer =>
        have leaves := Stage.Leaves.generation resolved clean checked clean₁ generated
        have stopped : ∀ d, answer = .error (.aborted d) → ¬ c₂.log.isClean := by
          rintro d rfl
          rcases Compilation.generate_records (program.symm ▸ passed) locations layouts
              generated with ⟨⟨o, ⟨⟩⟩, -⟩ | ⟨f, pos, -, -, one⟩
          simp [one, Log.isClean, Log.addError]
        simp only [Compilation.afterCheck, generated] at h
        obtain ⟨rfl, dirty⟩ | ⟨o, rfl, clean₂, h⟩ := CompileResult.dirty_of_afterStage h stopped
        · exact .incorrect leaves dirty
        · cases h
          exact .success o leaves clean₂

/-- What the parts of a result say together. -/
structure CompileResult.Agrees (r : CompileResult) (text : List Char) (failFast : Bool) : Prop where
  status : r.status = .success ∨ r.status = .incorrect ∨ r.status = .unparsable
  clean : r.status = .success ↔ r.log.errors = []
  object : r.status = .success ↔ r.object.isSome
  absent : r.status = .unparsable ↔ r.compilation = none
  unparsable : r.status = .unparsable →
    (∃ f pos, r.log.errors = [⟨.error, .source f, pos⟩]) ∧ r.log.notes = []
  incorrect : r.status = .incorrect →
    ∃ (p : Program) (stage : Stage) (c : Compilation), Program.ofText? text = .ok p ∧
      r.compilation = some c ∧ r.log = c.log ∧ stage.Leaves p failFast c ∧
      (∀ d ∈ r.log.errors, stage.Records d.fault) ∧
      (stage = .generation → r.log.errors.length ≤ 1)

/-- The status of a result, its errors and notes and its object code agree. The errors of a program
come from the first stage that has any, and generation has at most one. -/
theorem result_agrees {text : List Char} {failFast : Bool} {r : CompileResult}
    (compiled : compile text failFast = .ok r) : r.Agrees text failFast := by
  unfold compile at compiled
  cases parsed : Program.ofText? text with
  | error e =>
    rw [parsed] at compiled
    cases e with
    | longNumber pos => cases compiled
    | fault f pos =>
      cases compiled
      exact {
        status := .inr (.inr rfl)
        clean := by simp [Log.addError]
        object := by simp
        absent := by simp
        unparsable := fun _ => ⟨⟨f, _, rfl⟩, rfl⟩
        incorrect := by simp }
  | ok p =>
    rw [parsed] at compiled
    cases Program.compilesTo_of_compile parsed compiled with
    | @incorrect stage c leaves dirty =>
      have errors : c.log.errors ≠ [] := fun none => dirty (List.isEmpty_iff.mpr none)
      obtain ⟨own, one⟩ := leaves.records parsed
      exact {
        status := .inr (.inl rfl)
        clean := by simp [CompileResult.incorrect, errors]
        object := by simp [CompileResult.incorrect]
        absent := by simp [CompileResult.incorrect]
        unparsable := by simp [CompileResult.incorrect]
        incorrect := fun _ => ⟨p, stage, c, parsed, rfl, rfl, leaves, own, one⟩ }
    | success o leaves clean =>
      exact {
        status := .inl rfl
        clean := iff_of_true rfl (List.isEmpty_iff.mp clean)
        object := iff_of_true rfl rfl
        absent := by simp
        unparsable := by simp
        incorrect := by simp }

/-- The checks are passed, and only generation has something to say. -/
theorem predefinedInstanceText_agrees : ∃ r, compile predefinedInstanceText true = .ok r ∧
    r.status = .incorrect ∧ r.Agrees predefinedInstanceText true := by
  obtain ⟨r, compiled, incorrect⟩ := exists_ok_of_any (x := compile predefinedInstanceText true)
    (P := fun r => r.status = .incorrect) (by decide +kernel)
  exact ⟨r, compiled, of_decide_eq_true incorrect, result_agrees compiled⟩

end JamCompiler

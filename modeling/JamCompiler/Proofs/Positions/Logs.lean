import JamCompiler.Proofs.CleanRun

/-!
# What runs write into the log

A stage goes on after an error, and it may be stopped anywhere. Whatever becomes of a run, what it
has written into the log until then stays there. `Pass.Logs` says of a pass that all it writes has a
property, given a condition on the state in which it starts, and how the state and the answer are
related if it comes to its end. There is one rule for each basic step and one for each way to put
steps together.
-/

namespace JamCompiler

/-- Whether all diagnostics of a log have a property. -/
def Log.All (Q : Diagnostic → Prop) (log : Log) : Prop := ∀ d ∈ log.errors ++ log.notes, Q d

/-- Whether a diagnostic stands at one of some positions. -/
def Diagnostic.At (P : Nat → Prop) (d : Diagnostic) : Prop := ∃ pos : Nat, d.pos = pos ∧ P pos

namespace Log.All

variable {Q : Diagnostic → Prop} {log : Log} {fault : Fault} {pos : Int}

theorem empty {failFast : Bool} : All Q { failFast := failFast } := by
  rintro d ⟨⟩

theorem addError (h : log.All Q) (new : Q ⟨.error, fault, pos⟩) :
    (log.addError fault pos).All Q := by
  intro d hd
  simp only [Log.addError, List.mem_append, List.mem_singleton] at hd
  obtain (old | rfl) | old := hd
  · exact h d (List.mem_append_left _ old)
  · exact new
  · exact h d (List.mem_append_right _ old)

theorem addNote (h : log.All Q) (new : Q ⟨.note, fault, pos⟩) : (log.addNote fault pos).All Q := by
  intro d hd
  simp only [Log.addNote, List.mem_append, List.mem_singleton] at hd
  obtain old | old | rfl := hd
  · exact h d (List.mem_append_left _ old)
  · exact h d (List.mem_append_right _ old)
  · exact new

end Log.All

namespace Pass

/-- From a state with `I` a run writes only what has `Q`, however it ends, and if it comes to its
end, `J` holds of its answer and the state then. -/
structure Logs {σ α : Type} (Q : Diagnostic → Prop) (I : σ → Prop) (x : Pass σ α)
    (J : α → σ → Prop) : Prop where
  ended : ∀ {w v : Work σ} {a : α}, I w.own → w.log.All Q → EStateM.run x w = .ok a v →
    J a v.own ∧ v.log.All Q
  stopped : ∀ {w v : Work σ} {stop : Stop}, I w.own → w.log.All Q →
    EStateM.run x w = .error stop v → v.log.All Q

namespace Logs

variable {σ τ α β : Type} {Q : Diagnostic → Prop} {I I' : σ → Prop} {J J' : α → σ → Prop}
variable {K : β → σ → Prop} {x : Pass σ α} {f : α → Pass σ β} {fault : Fault} {pos : Nat}

theorem imp (h : Logs Q I x J) (before : ∀ s, I' s → I s) (after : ∀ a s, J a s → J' a s) :
    Logs Q I' x J' := by
  constructor
  · intro w v a start logged run
    obtain ⟨holds, all⟩ := h.ended (before _ start) logged run
    exact ⟨after _ _ holds, all⟩
  · intro w v stop start logged run
    exact h.stopped (before _ start) logged run

/-- The state at the start may be named. -/
theorem fix (h : ∀ s, I s → Logs Q (s = ·) x J) : Logs Q I x J := by
  constructor
  · intro w v a start logged run
    exact (h _ start).ended rfl logged run
  · intro w v stop start logged run
    exact (h _ start).stopped rfl logged run

theorem pure {a : α} (h : ∀ s, I s → J a s) : Logs Q I (Pure.pure a) J := by
  constructor
  · intro w v b start logged run
    cases run
    exact ⟨h _ start, logged⟩
  · intro w v stop start logged run
    cases run

theorem bind (first : Logs Q I x J) (next : ∀ a, Logs Q (J a) (f a) K) : Logs Q I (x >>= f) K := by
  constructor
  · intro w v b start logged run
    rw [EStateM.run_bind] at run
    split at run
    · rename_i a u here
      obtain ⟨holds, all⟩ := first.ended start logged here
      exact (next a).ended holds all run
    · cases run
  · intro w v stop start logged run
    rw [EStateM.run_bind] at run
    split at run
    · rename_i a u here
      obtain ⟨holds, all⟩ := first.ended start logged here
      exact (next a).stopped holds all run
    · rename_i here
      cases run
      exact first.stopped start logged here

theorem report (h : Q ⟨.error, fault, pos⟩) : Logs Q I (Pass.report fault pos) fun _ => I := by
  constructor
  · intro w v a start logged run
    rw [run_report] at run
    split at run
    · cases run
    · cases run
      exact ⟨start, logged.addError h⟩
  · intro w v stop start logged run
    rw [run_report] at run
    split at run
    · cases run
      exact logged.addError h
    · cases run

theorem fatal (h : Q ⟨.error, fault, pos⟩) : Logs Q I (Pass.fatal fault pos : Pass σ α) J := by
  constructor
  · intro w v a start logged run
    cases run
  · intro w v stop start logged run
    cases run
    exact logged.addError h

theorem note (h : Q ⟨.note, fault, pos⟩) : Logs Q I (Pass.note fault pos) fun _ => I := by
  constructor
  · intro w v a start logged run
    cases run
    exact ⟨start, logged.addNote h⟩
  · intro w v stop start logged run
    cases run

theorem getOwn : Logs Q I Pass.getOwn fun s s' => s = s' ∧ I s := by
  constructor
  · intro w v a start logged run
    cases run
    exact ⟨⟨rfl, start⟩, logged⟩
  · intro w v stop start logged run
    cases run

theorem modifyOwn {g : σ → σ} {J : σ → Prop} (h : ∀ s, I s → J (g s)) :
    Logs Q I (Pass.modifyOwn g) fun _ => J := by
  constructor
  · intro w v a start logged run
    cases run
    exact ⟨h _ start, logged⟩
  · intro w v stop start logged run
    cases run

theorem missing : Logs Q I (throw .missingArgument : Pass σ α) J := by
  constructor
  · intro w v a start logged run
    cases run
  · intro w v stop start logged run
    cases run
    exact logged

/-- A loop keeps what each of its steps keeps. -/
theorem forM {xs : List β} {g : β → Pass σ Unit} (h : ∀ b ∈ xs, Logs Q I (g b) fun _ => I) :
    Logs Q I (xs.forM g) fun _ => I := by
  induction xs with
  | nil => exact .pure fun _ => id
  | cons b rest ih =>
    obtain ⟨here, later⟩ := List.forall_mem_cons.mp h
    exact here.bind fun _ => ih later

/-- A pass on a part of the state, if nothing is asked of the whole of it. -/
theorem within {get : σ → τ} {set : σ → τ → σ} {y : Pass τ α}
    (h : Logs Q (fun _ => True) y fun _ _ => True) (kept : ∀ s t, I s → I (set s t)) :
    Logs Q I (Pass.within get set y) fun _ => I := by
  constructor
  · intro w v a start logged run
    rw [run_within] at run
    split at run
    · rename_i here
      cases run
      exact ⟨kept _ _ start, (h.ended trivial logged here).2⟩
    · cases run
  · intro w v stop start logged run
    rw [run_within] at run
    split at run
    · cases run
    · rename_i here
      cases run
      exact h.stopped trivial logged here

/-- A pass of which it is known what it does. -/
theorem of_run {s s' : σ} {a : α} (h : ∀ log, EStateM.run x ⟨log, s⟩ = .ok a ⟨log, s'⟩) :
    Logs Q (s = ·) x fun b t => a = b ∧ s' = t := by
  constructor
  · rintro ⟨log, own⟩ v b rfl logged run
    rw [h] at run
    cases run
    exact ⟨⟨rfl, rfl⟩, logged⟩
  · rintro ⟨log, own⟩ v stop rfl logged run
    rw [h] at run
    cases run

/-- What is asked of the state alone holds after a plain pass on any log, whatever is in that
already. -/
theorem ends {R : Fault → Prop} {S : Option Fault → Prop} (h : Logs Q I x J) (plain : Plain R S x)
    {s : σ} (start : I s) : Ends x s J := by
  refine ⟨fun {log a w} run => ?_⟩
  rw [plain.run_append] at run
  split at run
  · rename_i fresh
    cases run
    exact (h.ended start .empty fresh).1
  · cases run

/-- Whatever a run answers, all it has written has the property. -/
theorem log_of_run (h : Logs Q I x J) {log : Log} {s : σ} {w : Work σ} {answer : Except Stop α}
    (run : x.run log s = (w, answer)) (start : I s) (logged : log.All Q) : w.log.All Q := by
  unfold Pass.run at run
  split at run
  · rename_i here
    cases run
    exact (h.ended start logged here).2
  · rename_i here
    cases run
    exact h.stopped start logged here

end Logs

end Pass

end JamCompiler

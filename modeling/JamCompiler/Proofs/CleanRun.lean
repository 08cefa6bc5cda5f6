import JamCompiler.Compilation

/-!
# Clean runs

A run of a pass is clean if it comes to its end and records no error. Since the first error ends a
pass whose log is to fail fast, the clean runs are the runs of that mode that come to their end,
and nothing about logs needs to be said of them. `Plain.clean_iff` makes this precise for every
pass that is put together from the basic steps, whatever its log.

`Decides` is the logic in which the stages are specified: a condition under which the strict run
ends, and exactly under which, with what holds then.
-/

namespace JamCompiler

/-- A log followed by what another one holds. -/
def Log.append (log more : Log) : Log :=
  { log with errors := log.errors ++ more.errors, notes := log.notes ++ more.notes }

theorem Log.append_empty (log : Log) : log.append { failFast := log.failFast } = log := by
  simp [append]

namespace Pass

variable {σ τ α β : Type}

/-- A pass on a part of the state. -/
def within (get : σ → τ) (set : σ → τ → σ) (x : Pass τ α) : Pass σ α := fun w =>
  match EStateM.run x ⟨w.log, get w.own⟩ with
  | .ok a v => .ok a ⟨v.log, set w.own v.own⟩
  | .error stop v => .error stop ⟨v.log, set w.own v.own⟩

/-- A pass that was run to its end. -/
theorem run_eq_ok {x : Pass σ α} {log : Log} {s : σ} {a : α} {w : Work σ}
    (run : x.run log s = (w, .ok a)) : EStateM.run x ⟨log, s⟩ = .ok a w := by
  unfold Pass.run at run
  split at run
  · rename_i ended
    cases run
    exact ended
  · cases run

/-- Passes put together from the basic steps, with what they may report and what may stop them: a
fault, or none where an argument is missing. Such a pass looks at the log only to see whether the
first error is to end it. -/
inductive Plain (reports : Fault → Prop) (stops : Option Fault → Prop) :
    {σ α : Type} → Pass σ α → Prop
  | pure {σ α : Type} (a : α) : Plain reports stops (pure a : Pass σ α)
  | bind {σ α β : Type} {x : Pass σ α} {f : α → Pass σ β} :
      Plain reports stops x → (∀ a, Plain reports stops (f a)) → Plain reports stops (x >>= f)
  | report {σ : Type} {fault : Fault} (pos : Nat) :
      reports fault → Plain reports stops (report fault pos : Pass σ Unit)
  | fatal {σ α : Type} {fault : Fault} (pos : Nat) :
      stops (some fault) → Plain reports stops (fatal fault pos : Pass σ α)
  | note {σ : Type} (fault : Fault) (pos : Nat) :
      Plain reports stops (note fault pos : Pass σ Unit)
  | getOwn {σ : Type} : Plain reports stops (getOwn : Pass σ σ)
  | modifyOwn {σ : Type} (f : σ → σ) : Plain reports stops (modifyOwn f : Pass σ Unit)
  | missing {σ α : Type} : stops none → Plain reports stops (throw .missingArgument : Pass σ α)
  | within {σ τ α : Type} (get : σ → τ) (set : σ → τ → σ) {x : Pass τ α} :
      Plain reports stops x → Plain reports stops (within get set x)

theorem run_report (fault : Fault) (pos : Nat) (w : Work σ) :
    EStateM.run (report fault pos : Pass σ Unit) w =
      if w.log.failFast then
        .error (.aborted ⟨.error, fault, pos⟩) { w with log := w.log.addError fault pos }
      else .ok () { w with log := w.log.addError fault pos } := by
  simp only [report, EStateM.run_bind, EStateM.run_get]
  split <;> rfl

theorem run_fatal (fault : Fault) (pos : Nat) (w : Work σ) :
    EStateM.run (fatal fault pos : Pass σ α) w =
      .error (.aborted ⟨.error, fault, pos⟩) { w with log := w.log.addError fault pos } := rfl

theorem run_note (fault : Fault) (pos : Nat) (w : Work σ) :
    EStateM.run (note fault pos : Pass σ Unit) w =
      .ok () { w with log := w.log.addNote fault pos } := rfl

theorem run_getOwn (w : Work σ) : EStateM.run (getOwn : Pass σ σ) w = .ok w.own w := rfl

theorem run_modifyOwn (f : σ → σ) (w : Work σ) :
    EStateM.run (modifyOwn f : Pass σ Unit) w = .ok () { w with own := f w.own } := rfl

theorem run_missing (w : Work σ) :
    EStateM.run (throw .missingArgument : Pass σ α) w = .error .missingArgument w := rfl

theorem run_within (get : σ → τ) (set : σ → τ → σ) (x : Pass τ α) (w : Work σ) :
    EStateM.run (within get set x) w = match EStateM.run x ⟨w.log, get w.own⟩ with
      | .ok a v => .ok a ⟨v.log, set w.own v.own⟩
      | .error stop v => .error stop ⟨v.log, set w.own v.own⟩ := rfl

section Runs

variable {R : Fault → Prop} {S : Option Fault → Prop} {x : Pass σ α}

/-- A run on a log is the run on an empty one, with its diagnostics put at the end of the log. -/
theorem Plain.run_append (h : Plain R S x)
    (log : Log) (s : σ) :
    EStateM.run x ⟨log, s⟩ = match EStateM.run x ⟨{ failFast := log.failFast }, s⟩ with
      | .ok a w => .ok a ⟨log.append w.log, w.own⟩
      | .error stop w => .error stop ⟨log.append w.log, w.own⟩ := by
  induction h generalizing log with
  | pure a => simp [Log.append_empty]
  | getOwn => simp [run_getOwn, Log.append_empty]
  | modifyOwn f => simp [run_modifyOwn, Log.append_empty]
  | missing _ => simp [run_missing, Log.append_empty]
  | note fault pos => simp [run_note, Log.addNote, Log.append]
  | fatal pos _ => simp [run_fatal, Log.addError, Log.append]
  | report pos _ =>
    rw [run_report, run_report]
    cases log.failFast <;> simp [Log.addError, Log.append]
  | within get set _ ih =>
    rw [run_within, run_within, ih]
    cases EStateM.run _ (_ : Work _) <;> rfl
  | @bind _ α β x f _ _ ihx ihf =>
    rw [EStateM.run_bind, EStateM.run_bind, ihx log]
    have empty := ihx { failFast := log.failFast } s
    cases hx : EStateM.run x ⟨{ failFast := log.failFast }, s⟩ with
    | error stop w => rfl
    | ok a w =>
      obtain ⟨wlog, own⟩ := w
      have mode : wlog.failFast = log.failFast := by
        rw [hx] at empty
        simp only [EStateM.Result.ok.injEq, Work.mk.injEq] at empty
        rw [empty.2.1]
        rfl
      simp only
      rw [ihf a (log.append wlog), ihf a wlog]
      simp only [Log.append, mode]
      cases EStateM.run (f a) ⟨{ failFast := log.failFast }, own⟩ <;> simp

/-- A run that ends adds only what may be reported. -/
theorem Plain.ended (h : Plain R S x) {w v : Work σ} {a : α}
    (run : EStateM.run x w = .ok a v) :
    ∃ more, v.log.errors = w.log.errors ++ more ∧ (∀ d ∈ more, R d.fault) ∧
      (w.log.failFast = true → more = []) ∧ v.log.failFast = w.log.failFast := by
  induction h with
  | pure b =>
    obtain ⟨-, rfl⟩ : b = a ∧ w = v := by simpa using run
    exact ⟨[], by simp⟩
  | getOwn =>
    obtain ⟨-, rfl⟩ : w.own = a ∧ w = v := by simpa [run_getOwn] using run
    exact ⟨[], by simp⟩
  | modifyOwn f =>
    rw [run_modifyOwn] at run
    cases run
    exact ⟨[], by simp⟩
  | missing => cases run
  | note fault pos =>
    rw [run_note] at run
    cases run
    exact ⟨[], by simp [Log.addNote]⟩
  | fatal pos _ => cases run
  | report pos allowed =>
    rw [run_report] at run
    split at run
    · cases run
    · rename_i mode
      cases run
      exact ⟨[_], rfl, by simpa using allowed, fun h => absurd h mode, rfl⟩
  | within get set _ ih =>
    rw [run_within] at run
    split at run
    · rename_i inner
      cases run
      exact ih inner
    · cases run
  | bind _ _ ihx ihf =>
    rw [EStateM.run_bind] at run
    split at run
    · rename_i b u first
      obtain ⟨more, errors, allowed, strict, mode⟩ := ihx first
      obtain ⟨last, errors', allowed', strict', mode'⟩ := ihf b run
      refine ⟨more ++ last, by simp [errors', errors], ?_, ?_, mode'.trans mode⟩
      · intro d hd
        rcases List.mem_append.mp hd with hd | hd
        · exact allowed d hd
        · exact allowed' d hd
      · intro h
        rw [strict h, strict' (mode.trans h)]
        rfl
    · cases run

/-- The diagnostic that ends a run is the last in the log. It is a fatal one, or one that a log
that is to fail fast does not go on after. -/
theorem Plain.aborted (h : Plain R S x) {w v : Work σ}
    {d : Diagnostic} (run : EStateM.run x w = .error (.aborted d) v) :
    ∃ more, v.log.errors = w.log.errors ++ more ++ [d] ∧ (∀ e ∈ more, R e.fault) ∧
      (S (some d.fault) ∨ w.log.failFast = true ∧ R d.fault) := by
  induction h with
  | pure | getOwn | modifyOwn | missing | note => cases run
  | fatal pos allowed =>
    rw [run_fatal] at run
    cases run
    exact ⟨[], by simp [Log.addError], by simp, .inl allowed⟩
  | report pos allowed =>
    rw [run_report] at run
    split at run
    · rename_i mode
      cases run
      exact ⟨[], by simp [Log.addError], by simp, .inr ⟨mode, allowed⟩⟩
    · cases run
  | within get set _ ih =>
    rw [run_within] at run
    split at run
    · cases run
    · rename_i inner
      cases run
      exact ih inner
  | bind hx _ ihx ihf =>
    rw [EStateM.run_bind] at run
    split at run
    · rename_i b u first
      obtain ⟨more, errors, allowed, strict, mode⟩ := hx.ended first
      obtain ⟨last, errors', allowed', cause⟩ := ihf b run
      refine ⟨more ++ last, by simp [errors', errors], ?_, mode ▸ cause⟩
      intro e he
      rcases List.mem_append.mp he with he | he
      · exact allowed e he
      · exact allowed' e he
    · rename_i stop u first
      cases run
      exact ihx first

/-- Whatever a run adds to the errors may be reported or may end it. -/
theorem Plain.recorded (h : Plain R S x) {log : Log} {s : σ} {w : Work σ} {answer : Except Stop α}
    (run : x.run log s = (w, answer)) (finished : answer ≠ .error .missingArgument) :
    ∀ d ∈ w.log.errors, d ∈ log.errors ∨ R d.fault ∨ S (some d.fault) := by
  unfold Pass.run at run
  split at run
  · rename_i ended
    cases run
    obtain ⟨more, errors, allowed, -⟩ := h.ended ended
    intro d hd
    rw [errors] at hd
    rcases List.mem_append.mp hd with hd | hd
    · exact .inl hd
    · exact .inr (.inl (allowed d hd))
  · rename_i stop v stopped
    cases run
    cases stop with
    | missingArgument => exact absurd rfl finished
    | aborted last =>
      obtain ⟨more, errors, allowed, cause⟩ := h.aborted stopped
      intro d hd
      rw [errors, List.append_assoc] at hd
      rcases List.mem_append.mp hd with hd | hd
      · exact .inl hd
      · rcases List.mem_append.mp hd with hd | hd
        · exact .inr (.inl (allowed d hd))
        · obtain rfl := List.mem_singleton.mp hd
          exact .inr (cause.symm.imp And.right id)

/-- A missing argument stops only passes that it may stop. -/
theorem Plain.missed (h : Plain R S x)
    {w v : Work σ} (run : EStateM.run x w = .error .missingArgument v) : S none := by
  induction h with
  | pure | getOwn | modifyOwn | note | fatal => cases run
  | missing allowed => exact allowed
  | report =>
    rw [run_report] at run
    split at run <;> cases run
  | within get set _ ih =>
    rw [run_within] at run
    split at run
    · cases run
    · rename_i inner
      cases run
      exact ih inner
  | bind _ _ ihx ihf =>
    rw [EStateM.run_bind] at run
    split at run
    · exact ihf _ run
    · rename_i inner
      cases run
      exact ihx inner

/-- The state of a pass that the first error ends. -/
def strict (s : σ) : Work σ := ⟨{ failFast := true }, s⟩

/-- What ends without an error on one log does so on every log. -/
theorem Plain.clean_of_clean (h : Plain R S x) {s : σ} {a : α}
    {w : Work σ} {log : Log} (other : Log) (run : EStateM.run x ⟨log, s⟩ = .ok a w)
    (clean : w.log.errors = log.errors) :
    ∃ v, EStateM.run x ⟨other, s⟩ = .ok a v ∧ v.own = w.own ∧ v.log.errors = other.errors := by
  induction h generalizing log other with
  | pure b =>
    obtain ⟨rfl, rfl⟩ : b = a ∧ _ = w := by simpa using run
    exact ⟨_, rfl, rfl, rfl⟩
  | getOwn | modifyOwn f | note fault pos =>
    cases run
    exact ⟨_, rfl, rfl, rfl⟩
  | missing | fatal => cases run
  | report pos _ =>
    rw [run_report] at run
    split at run
    · cases run
    · cases run
      simp [Log.addError] at clean
  | within get set _ ih =>
    rw [run_within] at run
    split at run
    · rename_i inner
      cases run
      obtain ⟨v, hv, own, errors⟩ := ih other inner clean
      exact ⟨⟨v.log, set s v.own⟩, by rw [run_within, hv], by rw [own], errors⟩
    · cases run
  | bind hx hf ihx ihf =>
    rw [EStateM.run_bind] at run
    split at run
    · rename_i b u first
      obtain ⟨more, errors, -⟩ := hx.ended first
      obtain ⟨last, errors', -⟩ := (hf b).ended run
      have none : more = [] ∧ last = [] := by
        have : log.errors ++ (more ++ last) = log.errors := by
          rw [← List.append_assoc, ← errors, ← errors', clean]
        simpa using this
      obtain ⟨v, hv, own, kept⟩ := ihx other first (by simpa [none.1] using errors)
      obtain ⟨ulog, uown⟩ := u
      obtain ⟨vlog, vown⟩ := v
      simp only at own kept
      subst own
      obtain ⟨v', hv', own', kept'⟩ := ihf b vlog run (by simpa [none.2] using errors')
      exact ⟨v', by rw [EStateM.run_bind, hv]; exact hv', own', kept'.trans kept⟩
    · cases run

/-- The clean runs of a pass are its strict runs that come to their end. -/
theorem Plain.clean_iff (h : Plain R S x) (log : Log)
    (s s' : σ) (a : α) :
    (∃ w, EStateM.run x ⟨log, s⟩ = .ok a w ∧ w.own = s' ∧ w.log.errors = log.errors) ↔
      ∃ w, EStateM.run x (strict s) = .ok a w ∧ w.own = s' := by
  constructor
  · rintro ⟨w, run, own, clean⟩
    obtain ⟨v, hv, own', -⟩ := h.clean_of_clean { failFast := true } run clean
    exact ⟨v, hv, own'.trans own⟩
  · rintro ⟨w, run, own⟩
    have clean : w.log.errors = [] := by
      obtain ⟨more, errors, -, empty, -⟩ := h.ended run
      rw [errors, empty rfl]
      rfl
    obtain ⟨v, hv, own', errors⟩ := h.clean_of_clean log run clean
    exact ⟨v, hv, own'.trans own, errors⟩

end Runs

/-- A strict run comes to its end exactly if a condition holds; it records nothing, and what it
answers and leaves is as said. -/
structure Decides (x : Pass σ α) (s : σ) (cond : Prop) (post : α → σ → Prop) : Prop where
  ends : cond → ∃ a s', EStateM.run x (strict s) = .ok a (strict s') ∧ post a s'
  only : ∀ {a : α} {w : Work σ}, EStateM.run x (strict s) = .ok a w → cond

/-- A strict run that leaves the state as it is and gives an answer, or is stopped. -/
def Answers (x : Pass σ α) (s : σ) : Option α → Prop
  | some a => EStateM.run x (strict s) = .ok a (strict s)
  | none => ∃ stop w, EStateM.run x (strict s) = .error stop w

namespace Answers

variable {x : Pass σ α} {f : α → Pass σ β} {s : σ} {o : Option α}

theorem pure (a : α) (s : σ) : Answers (Pure.pure a : Pass σ α) s (some a) := rfl

theorem report (fault : Fault) (pos : Nat) (s : σ) :
    Answers (Pass.report fault pos : Pass σ Unit) s none :=
  ⟨_, _, run_report fault pos (strict s)⟩

/-- A first step that is stopped. -/
theorem bind_none (first : Answers x s none) : Answers (x >>= f) s none := by
  obtain ⟨stop, w, run⟩ := first
  exact ⟨stop, w, by rw [EStateM.run_bind, run]⟩

theorem bind_some {a : α} {p : Option β} (first : Answers x s (some a)) (next : Answers (f a) s p) :
    Answers (x >>= f) s p := by
  have run : EStateM.run x (strict s) = .ok a (strict s) := first
  have same : EStateM.run (x >>= f) (strict s) = EStateM.run (f a) (strict s) := by
    rw [EStateM.run_bind, run]
  cases p with
  | none =>
    obtain ⟨stop, w, run'⟩ := next
    exact ⟨stop, w, same.trans run'⟩
  | some b => exact same.trans next

theorem bind {g : α → Option β} (first : Answers x s o) (next : ∀ a, Answers (f a) s (g a)) :
    Answers (x >>= f) s (o.bind g) := by
  cases o with
  | none => exact first.bind_none
  | some a => exact first.bind_some (next a)

end Answers

theorem Answers.decides {x : Pass σ α} {s : σ} {o : Option α} (h : Answers x s o) :
    Decides x s o.isSome fun a s' => o = some a ∧ s' = s := by
  cases o with
  | none => exact ⟨fun h => by simp at h, fun run => by
      obtain ⟨stop, w, stopped⟩ := h
      rw [stopped] at run
      cases run⟩
  | some a => exact ⟨fun _ => ⟨a, s, h, rfl, rfl⟩, fun _ => rfl⟩

namespace Decides

variable {x : Pass σ α} {f : α → Pass σ β} {s : σ} {c d : Prop}
variable {P : α → σ → Prop} {Q : β → σ → Prop}

/-- What a run that ended tells. -/
theorem of_run (h : Decides x s c P) {a : α} {w : Work σ}
    (run : EStateM.run x (strict s) = .ok a w) : c ∧ ∃ s', w = strict s' ∧ P a s' := by
  have holds := h.only run
  obtain ⟨b, s', run', post⟩ := h.ends holds
  rw [run] at run'
  obtain ⟨rfl, rfl⟩ : a = b ∧ w = strict s' := by simpa using run'
  exact ⟨holds, s', rfl, post⟩

/-- A run that is known to come to its end. -/
theorem ok (a : α) (s' : σ) (run : EStateM.run x (strict s) = .ok a (strict s')) (holds : c)
    (post : P a s') : Decides x s c P :=
  ⟨fun _ => ⟨a, s', run, post⟩, fun _ => holds⟩

/-- A run that is known to be stopped. -/
theorem error (run : ∃ stop w, EStateM.run x (strict s) = .error stop w) (fails : ¬ c) :
    Decides x s c P :=
  ⟨fun holds => absurd holds fails, fun run' => by
    obtain ⟨stop, w, run⟩ := run
    rw [run] at run'
    cases run'⟩

theorem pure {a : α} (h : P a s) : Decides (Pure.pure a) s True P :=
  ⟨fun _ => ⟨a, s, rfl, h⟩, fun _ => trivial⟩

theorem report {fault : Fault} {pos : Nat} {P : Unit → σ → Prop} :
    Decides (Pass.report fault pos) s False P := by
  refine ⟨False.elim, fun run => ?_⟩
  rw [run_report] at run
  cases run

theorem fatal {fault : Fault} {pos : Nat} : Decides (Pass.fatal fault pos : Pass σ α) s False P :=
  ⟨False.elim, fun run => by cases run⟩

theorem bind (first : Decides x s c P)
    (next : c → ∀ a s', P a s' → Decides (f a) s' d Q) : Decides (x >>= f) s (c ∧ d) Q := by
  constructor
  · rintro ⟨hc, hd⟩
    obtain ⟨a, s', run, post⟩ := first.ends hc
    obtain ⟨b, s'', run', post'⟩ := (next hc a s' post).ends hd
    exact ⟨b, s'', by rw [EStateM.run_bind, run]; exact run', post'⟩
  · intro b w run
    rw [EStateM.run_bind] at run
    split at run
    · rename_i a v run'
      obtain ⟨hc, s', rfl, post⟩ := first.of_run run'
      exact ⟨hc, (next hc a s' post).only run⟩
    · cases run

/-- A first step that cannot go on. -/
theorem bind_stop (first : Decides x s c P) (fails : ¬ c) (fails' : ¬ d) :
    Decides (x >>= f) s d Q :=
  ⟨fun holds => absurd holds fails', fun run => by
    rw [EStateM.run_bind] at run
    split at run
    · exact absurd (first.only (by assumption)) fails
    · cases run⟩

/-- The condition in another form. -/
theorem congr (h : Decides x s c P) (same : c ↔ d) : Decides x s d P :=
  ⟨fun hd => h.ends (same.mpr hd), fun run => same.mp (h.only run)⟩

/-- Less said of the answer and of what is left. -/
theorem mono (h : Decides x s c P) {P' : α → σ → Prop} (post : c → ∀ a s', P a s' → P' a s') :
    Decides x s c P' := by
  refine ⟨fun hc => ?_, h.only⟩
  obtain ⟨a, s', run, holds⟩ := h.ends hc
  exact ⟨a, s', run, post hc a s' holds⟩

/-- Before a step that always comes to its end. -/
theorem before (first : Decides x s c P) (next : c → ∀ a s', P a s' → Decides (f a) s' True Q) :
    Decides (x >>= f) s c Q :=
  (first.bind next).congr (and_iff_left trivial)

/-- A first step whose condition is already part of the whole one. -/
theorem bind_of_imp (first : Decides x s c P) (holds : d → c)
    (next : c → ∀ a s', P a s' → Decides (f a) s' d Q) : Decides (x >>= f) s d Q :=
  (first.bind next).congr ⟨And.right, fun h => ⟨holds h, h⟩⟩

/-- A step whose answer is dropped. -/
theorem discard {R : σ → Prop} (h : Decides x s c fun _ s' => R s') :
    Decides (do let _ ← x : Pass σ Unit) s c fun _ s' => R s' :=
  h.before (f := fun _ => Pure.pure ()) (Q := fun _ s' => R s') fun _ _ _ holds => .pure holds

end Decides

/-- Whatever the log, if a run comes to its end, something holds of its answer and of what it
leaves. -/
structure Ends (x : Pass σ α) (s : σ) (post : α → σ → Prop) : Prop where
  holds : ∀ {log : Log} {a : α} {w : Work σ}, EStateM.run x ⟨log, s⟩ = .ok a w → post a w.own

namespace Ends

variable {x : Pass σ α} {f : α → Pass σ β} {s : σ} {P : α → σ → Prop} {Q : β → σ → Prop}

theorem pure {a : α} (h : P a s) : Ends (Pure.pure a) s P := by
  refine ⟨fun run => ?_⟩
  cases run
  exact h

theorem getOwn {P : σ → σ → Prop} (h : P s s) : Ends Pass.getOwn s P := by
  refine ⟨fun run => ?_⟩
  cases run
  exact h

theorem modifyOwn {g : σ → σ} {P : Unit → σ → Prop} (h : P () (g s)) :
    Ends (Pass.modifyOwn g) s P := by
  refine ⟨fun run => ?_⟩
  cases run
  exact h

theorem fatal {fault : Fault} {pos : Nat} : Ends (Pass.fatal fault pos : Pass σ α) s P :=
  ⟨fun run => by cases run⟩

theorem throw {stop : Stop} : Ends (MonadExcept.throw stop : Pass σ α) s P :=
  ⟨fun run => by cases run⟩

theorem bind (first : Ends x s P) (next : ∀ a s', P a s' → Ends (f a) s' Q) :
    Ends (x >>= f) s Q := by
  refine ⟨fun run => ?_⟩
  rw [EStateM.run_bind] at run
  split at run
  · rename_i a v run'
    exact (next a v.own (first.holds run')).holds run
  · cases run

theorem imp {R : α → σ → Prop} (h : Ends x s P) (post : ∀ a s', P a s' → R a s') : Ends x s R :=
  ⟨fun run => post _ _ (h.holds run)⟩

theorem and {R : α → σ → Prop} (h : Ends x s P) (h' : Ends x s R) :
    Ends x s fun a s' => P a s' ∧ R a s' :=
  ⟨fun run => ⟨h.holds run, h'.holds run⟩⟩

end Ends

/-- Whatever the log, a run records nothing and comes to its end if a condition holds, and otherwise
it is stopped by one fault of some kind, the only one that it records. -/
structure Concludes (F : Fault → Prop) (x : Pass σ α) (s : σ) (cond : Prop) (post : α → σ → Prop) :
    Prop where
  ends : cond → ∀ log, ∃ a s', EStateM.run x ⟨log, s⟩ = .ok a ⟨log, s'⟩ ∧ post a s'
  stops : ¬ cond → ∀ log, ∃ fault pos s', F fault ∧
    EStateM.run x ⟨log, s⟩ = .error (.aborted ⟨.error, fault, pos⟩) ⟨log.addError fault pos, s'⟩

namespace Concludes

variable {F : Fault → Prop} {x : Pass σ α} {f : α → Pass σ β} {s : σ} {c d : Prop}
variable {P : α → σ → Prop} {Q : β → σ → Prop}

theorem pure {a : α} (h : P a s) : Concludes F (Pure.pure a) s True P :=
  ⟨fun _ _ => ⟨a, s, rfl, h⟩, fun not => absurd trivial not⟩

theorem getOwn {P : σ → σ → Prop} (h : P s s) : Concludes F Pass.getOwn s True P :=
  ⟨fun _ _ => ⟨s, s, rfl, h⟩, fun not => absurd trivial not⟩

theorem modifyOwn {g : σ → σ} {P : Unit → σ → Prop} (h : P () (g s)) :
    Concludes F (Pass.modifyOwn g) s True P :=
  ⟨fun _ _ => ⟨(), g s, rfl, h⟩, fun not => absurd trivial not⟩

theorem fatal {fault : Fault} {pos : Nat} (h : F fault) :
    Concludes F (Pass.fatal fault pos : Pass σ α) s False P :=
  ⟨False.elim, fun _ _ => ⟨fault, pos, s, h, rfl⟩⟩

theorem bind (first : Concludes F x s c P) (next : ∀ a s', P a s' → Concludes F (f a) s' d Q) :
    Concludes F (x >>= f) s (c ∧ d) Q := by
  by_cases hc : c
  · have run := first.ends hc
    constructor
    · intro both log
      obtain ⟨a, s', ran, holds⟩ := run log
      obtain ⟨b, s'', ran', holds'⟩ := (next a s' holds).ends both.2 log
      exact ⟨b, s'', by rw [EStateM.run_bind, ran]; exact ran', holds'⟩
    · intro not log
      obtain ⟨a, s', ran, holds⟩ := run log
      obtain ⟨fault, pos, s'', known, ran'⟩ :=
        (next a s' holds).stops (fun hd => not ⟨hc, hd⟩) log
      exact ⟨fault, pos, s'', known, by rw [EStateM.run_bind, ran]; exact ran'⟩
  · refine ⟨fun both => absurd both.1 hc, fun _ log => ?_⟩
    obtain ⟨fault, pos, s', known, ran⟩ := first.stops hc log
    exact ⟨fault, pos, s', known, by rw [EStateM.run_bind, ran]⟩

/-- The condition in another form. -/
theorem congr (h : Concludes F x s c P) (same : c ↔ d) : Concludes F x s d P :=
  ⟨fun hd => h.ends (same.mpr hd), fun not => h.stops fun hc => not (same.mp hc)⟩

/-- Less said of the answer and of what is left. -/
theorem mono {R : α → σ → Prop} (h : Concludes F x s c P) (post : ∀ a s', P a s' → R a s') :
    Concludes F x s c R := by
  refine ⟨fun hc log => ?_, h.stops⟩
  obtain ⟨a, s', ran, holds⟩ := h.ends hc log
  exact ⟨a, s', ran, post a s' holds⟩

/-- Before a step that always comes to its end. -/
theorem before (first : Concludes F x s c P)
    (next : ∀ a s', P a s' → Concludes F (f a) s' True Q) : Concludes F (x >>= f) s c Q :=
  (first.bind next).congr (and_iff_left trivial)

/-- After a step that always comes to its end. -/
theorem after (first : Concludes F x s True P)
    (next : ∀ a s', P a s' → Concludes F (f a) s' d Q) : Concludes F (x >>= f) s d Q :=
  (first.bind next).congr ⟨And.right, fun h => ⟨trivial, h⟩⟩

/-- What holds of a run that comes to its end holds after every run that does. -/
theorem to_ends (h : Concludes F x s c P) (holds : c) : Ends x s P := by
  refine ⟨fun {log a w} run => ?_⟩
  obtain ⟨b, s', ran, post⟩ := h.ends holds log
  cases run.symm.trans ran
  exact post

/-- What holds after every run that comes to its end holds after this one too. -/
theorem and_ends {R : α → σ → Prop} (h : Concludes F x s c P) (ends : Ends x s R) :
    Concludes F x s c fun a s' => P a s' ∧ R a s' := by
  refine ⟨fun hc log => ?_, h.stops⟩
  obtain ⟨a, s', ran, holds⟩ := h.ends hc log
  exact ⟨a, s', ran, holds, ends.holds ran⟩

theorem within (get : σ → τ) (set : σ → τ → σ) {y : Pass τ α} {P : α → τ → Prop}
    (h : Concludes F y (get s) c P) :
    Concludes F (Pass.within get set y) s c fun a s' => ∃ t, s' = set s t ∧ P a t := by
  constructor
  · intro hc log
    obtain ⟨a, t, ran, holds⟩ := h.ends hc log
    exact ⟨a, set s t, by rw [run_within, ran], t, rfl, holds⟩
  · intro not log
    obtain ⟨fault, pos, t, known, ran⟩ := h.stops not log
    exact ⟨fault, pos, set s t, known, by rw [run_within, ran]⟩

end Concludes

end Pass

end JamCompiler

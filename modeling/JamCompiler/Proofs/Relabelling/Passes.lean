import JamCompiler.Proofs.CleanRun
import JamCompiler.Proofs.Relabelling.Types
import Mathlib.Data.List.Forall2

/-!
# Passes on relabelled programs

Two runs of a pass, on a program relabelled in two ways, go the same way: `Pass.Mirrors` says that
they end together, with answers and states that are the same one relabelled in both ways, and that
they find the same faults at corresponding positions. Where the names are the same, so are the
messages and hints.

There is one rule for each way in which passes are put together, so it is shown of a stage along its
definition.
-/

namespace JamCompiler

/-- What a fault shows. -/
def Fault.shown (fault : Fault) : String × Option String := (fault.message, fault.hint)

section Alike

variable (ρ ρ' : Relabelling)

/-- Positions that are put for the same one, or that are both zero. -/
def Places (pos pos' : Int) : Prop :=
  (∃ k : Nat, pos = ρ.place k ∧ pos' = ρ'.place k) ∨ pos = 0 ∧ pos' = 0

/-- Diagnostics of the same fault after both relabellings. -/
structure Diagnostic.Alike (d d' : Diagnostic) : Prop where
  severity : d.severity = d'.severity
  places : Places ρ ρ' d.pos d'.pos
  shown : ρ.name = ρ'.name → d.fault.shown = d'.fault.shown

structure Log.Alike (log log' : Log) : Prop where
  failFast : log.failFast = log'.failFast
  errors : List.Forall₂ (Diagnostic.Alike ρ ρ') log.errors log'.errors
  notes : List.Forall₂ (Diagnostic.Alike ρ ρ') log.notes log'.notes

inductive Stop.Alike : Stop → Stop → Prop
  | aborted {d d' : Diagnostic} (h : d.Alike ρ ρ' d') : Alike (.aborted d) (.aborted d')
  | missingArgument : Alike .missingArgument .missingArgument

/-- How a pass ends on both: with an answer and a state relabelled in both ways, and logs alike. -/
inductive Pass.Alike {σ τ α γ : Type} (own : Relabelling → τ → σ) (answer : Relabelling → γ → α) :
    EStateM.Result Stop (Work σ) α → EStateM.Result Stop (Work σ) α → Prop
  | ok (c : γ) (s : τ) {log log' : Log} (logs : log.Alike ρ ρ' log') :
    Alike own answer (.ok (answer ρ c) ⟨log, own ρ s⟩) (.ok (answer ρ' c) ⟨log', own ρ' s⟩)
  | error (s : τ) {stop stop' : Stop} (stops : stop.Alike ρ ρ' stop') {log log' : Log}
    (logs : log.Alike ρ ρ' log') :
    Alike own answer (.error stop ⟨log, own ρ s⟩) (.error stop' ⟨log', own ρ' s⟩)

/-- Two passes that do the same on what is relabelled in the one way and in the other. -/
def Pass.Mirrors {σ τ α γ : Type} (own : Relabelling → τ → σ) (answer : Relabelling → γ → α)
    (x y : Pass σ α) : Prop :=
  ∀ s log log', log.Alike ρ ρ' log' →
    Alike ρ ρ' own answer (EStateM.run x ⟨log, own ρ s⟩) (EStateM.run y ⟨log', own ρ' s⟩)

end Alike

/-- An answer that no relabelling changes. -/
def unchanged {α : Type} (_ : Relabelling) (a : α) : α := a

variable {ρ ρ' : Relabelling}

theorem Places.place (k : Nat) : Places ρ ρ' (ρ.place k) (ρ'.place k) := .inl ⟨k, rfl, rfl⟩

theorem Places.zero : Places ρ ρ' 0 0 := .inr ⟨rfl, rfl⟩

theorem Places.labels (home : Home) (k : Nat) :
    Places ρ ρ' ((ρ.labels home).place k) ((ρ'.labels home).place k) := by
  cases home with
  | user site => exact .place k
  | predefined =>
    cases k with
    | zero => exact .zero
    | succ k => exact .place (k + 1)

theorem Decl.places (d : Decl) : Places ρ ρ' (d.relabel ρ).pos (d.relabel ρ').pos := by
  rw [relabel_pos, relabel_pos]
  exact .labels d.home d.pos

/-- Where the names are the same, the same is shown. -/
theorem Diagnostic.map_shown (names : ρ.name = ρ'.name) {ds ds' : List Diagnostic}
    (h : List.Forall₂ (Diagnostic.Alike ρ ρ') ds ds') :
    ds.map (·.fault.shown) = ds'.map (·.fault.shown) := by
  induction h with
  | nil => rfl
  | cons alike _ ih => rw [List.map_cons, List.map_cons, alike.shown names, ih]

namespace Log.Alike

variable {log log' : Log} {fault fault' : Fault} {pos pos' : Int}

theorem addError (h : log.Alike ρ ρ' log') (places : Places ρ ρ' pos pos')
    (shown : ρ.name = ρ'.name → fault.shown = fault'.shown) :
    (log.addError fault pos).Alike ρ ρ' (log'.addError fault' pos') where
  failFast := h.failFast
  errors := List.rel_append h.errors (.cons ⟨rfl, places, shown⟩ .nil)
  notes := h.notes

theorem addNote (h : log.Alike ρ ρ' log') (places : Places ρ ρ' pos pos')
    (shown : ρ.name = ρ'.name → fault.shown = fault'.shown) :
    (log.addNote fault pos).Alike ρ ρ' (log'.addNote fault' pos') where
  failFast := h.failFast
  errors := h.errors
  notes := List.rel_append h.notes (.cons ⟨rfl, places, shown⟩ .nil)

theorem isClean (h : log.Alike ρ ρ' log') : log.isClean = log'.isClean := by
  have errors := h.errors
  unfold Log.isClean
  generalize log.errors = ds at errors ⊢
  generalize log'.errors = ds' at errors ⊢
  cases errors <;> rfl

end Log.Alike

namespace Pass.Mirrors

variable {σ τ α β γ δ : Type} {own : Relabelling → τ → σ}
variable {answer : Relabelling → γ → α} {after : Relabelling → δ → β} {x y : Pass σ α}

theorem pure (c : γ) {a b : α} (ha : a = answer ρ c) (hb : b = answer ρ' c) :
    Mirrors ρ ρ' own answer (Pure.pure a) (Pure.pure b) := by
  intro s log log' logs
  subst ha hb
  exact .ok c s logs

/-- The end of a step without an answer. -/
theorem done : Mirrors ρ ρ' own unchanged (Pure.pure () : Pass σ Unit) (Pure.pure ()) :=
  .pure () rfl rfl

theorem bind {f g : α → Pass σ β} (first : Mirrors ρ ρ' own answer x y)
    (next : ∀ c, Mirrors ρ ρ' own after (f (answer ρ c)) (g (answer ρ' c))) :
    Mirrors ρ ρ' own after (x >>= f) (y >>= g) := by
  intro s log log' logs
  have ends := first s log log' logs
  rw [EStateM.run_bind, EStateM.run_bind]
  generalize EStateM.run x _ = r at ends ⊢
  generalize EStateM.run y _ = r' at ends ⊢
  cases ends with
  | ok c s logs => exact next c s _ _ logs
  | error s stops logs => exact .error s stops logs

theorem fatal {fault fault' : Fault} {pos pos' : Nat} (places : Places ρ ρ' pos pos')
    (shown : ρ.name = ρ'.name → fault.shown = fault'.shown) :
    Mirrors ρ ρ' own answer (Pass.fatal fault pos) (Pass.fatal fault' pos') := by
  intro s log log' logs
  have alike : Diagnostic.Alike ρ ρ' ⟨.error, fault, pos⟩ ⟨.error, fault', pos'⟩ :=
    ⟨rfl, places, shown⟩
  exact .error s (.aborted alike) (logs.addError places shown)

theorem report {fault fault' : Fault} {pos pos' : Nat} (places : Places ρ ρ' pos pos')
    (shown : ρ.name = ρ'.name → fault.shown = fault'.shown) :
    Mirrors ρ ρ' own unchanged (Pass.report fault pos) (Pass.report fault' pos') := by
  intro s log log' logs
  have alike : Diagnostic.Alike ρ ρ' ⟨.error, fault, pos⟩ ⟨.error, fault', pos'⟩ :=
    ⟨rfl, places, shown⟩
  rw [run_report, run_report]
  simp only [logs.failFast]
  split
  · exact .error s (.aborted alike) (logs.addError places shown)
  · exact .ok () s (logs.addError places shown)

theorem note {fault fault' : Fault} {pos pos' : Nat} (places : Places ρ ρ' pos pos')
    (shown : ρ.name = ρ'.name → fault.shown = fault'.shown) :
    Mirrors ρ ρ' own unchanged (Pass.note fault pos) (Pass.note fault' pos') := by
  intro s log log' logs
  rw [run_note, run_note]
  exact .ok () s (logs.addNote places shown)

theorem missing : Mirrors ρ ρ' own answer (throw .missingArgument) (throw .missingArgument) :=
  fun s _ _ logs => .error s .missingArgument logs

theorem getOwn : Mirrors ρ ρ' own own Pass.getOwn Pass.getOwn :=
  fun s _ _ logs => .ok s s logs

theorem modifyOwn {f g : σ → σ} (h : τ → τ) (hf : ∀ s, f (own ρ s) = own ρ (h s))
    (hg : ∀ s, g (own ρ' s) = own ρ' (h s)) :
    Mirrors ρ ρ' own unchanged (Pass.modifyOwn f) (Pass.modifyOwn g) := by
  intro s log log' logs
  rw [run_modifyOwn, run_modifyOwn]
  simp only [hf, hg]
  exact .ok () (h s) logs

/-- A pass on a part of the state. -/
theorem within {σ₀ τ₀ : Type} {part : Relabelling → τ₀ → σ₀} {x y : Pass σ₀ α} {get : σ → σ₀}
    {set : σ → σ₀ → σ} (getPart : τ → τ₀) (setPart : τ → τ₀ → τ)
    (hget : ∀ ρ s, get (own ρ s) = part ρ (getPart s))
    (hset : ∀ ρ s t, set (own ρ s) (part ρ t) = own ρ (setPart s t))
    (h : Mirrors ρ ρ' part answer x y) :
    Mirrors ρ ρ' own answer (Pass.within get set x) (Pass.within get set y) := by
  intro s log log' logs
  have ends := h (getPart s) log log' logs
  rw [run_within, run_within]
  simp only [hget]
  generalize EStateM.run x _ = r at ends ⊢
  generalize EStateM.run y _ = r' at ends ⊢
  cases ends with
  | ok c t logs =>
    simp only [hset]
    exact .ok c _ logs
  | error t stops logs =>
    simp only [hset]
    exact .error _ stops logs

/-- The answer of a part of the state. -/
theorem answers {f g : α → β} (first : Mirrors ρ ρ' own answer x y) (h : γ → δ)
    (hf : ∀ c, f (answer ρ c) = after ρ (h c)) (hg : ∀ c, g (answer ρ' c) = after ρ' (h c)) :
    Mirrors ρ ρ' own after (x >>= fun a => Pure.pure (f a)) (y >>= fun a => Pure.pure (g a)) :=
  first.bind fun c => .pure (h c) (hf c) (hg c)

theorem forM {ε : Type} {f g : α → Pass σ Unit} (h : ε → α) (h' : ε → α) (cs : List ε)
    (each : ∀ c ∈ cs, Mirrors ρ ρ' own unchanged (f (h c)) (g (h' c))) :
    Mirrors ρ ρ' own unchanged ((cs.map h).forM f) ((cs.map h').forM g) := by
  induction cs with
  | nil => exact done
  | cons c rest ih =>
    have ⟨here, later⟩ := List.forall_mem_cons.mp each
    exact here.bind fun _ => ih later

end Pass.Mirrors

end JamCompiler

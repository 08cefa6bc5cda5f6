import JamCompiler.Proofs.Binding
import JamCompiler.Proofs.Naming.SecondClasses
import JamCompiler.Proofs.Rechecking

/-!
# Resolving again

A program that was resolved to the end can be resolved again on what that has bound, with a new log.
The second run comes to its end too. It keeps all bindings, records all that the first run did, and
does nothing else, unless a link was missed: a link from a field of a later class into the class
that is the type of that field. The first run leaves the link unbound without an error; the second
one, which finds that type bound, binds the link or reports it.
-/

namespace JamCompiler

open Pass Resolving

/-- Resolution in a compilation that goes on after errors and has recorded nothing so far. -/
theorem Compilation.resolve_eq_iff {c c' : Compilation} {t : ScopeTable} (log : c.log = {}) :
    c.resolve = (c', t, .ok ()) ↔ ∃ found n,
      Finishes (Resolving.resolve c.program) ⟨{}, c.bindings⟩ () found ⟨t, n⟩ ∧
      c' = { c with log := found, bindings := n } := by
  unfold Finishes
  simp only [resolve, runResolving, Pass.run, log]
  cases EStateM.run (Resolving.resolve c.program) ⟨{}, ⟨{}, c.bindings⟩⟩ with
  | error stop w => simp
  | ok u w =>
    constructor
    · intro same
      cases same
      exact ⟨_, _, rfl, rfl⟩
    · rintro ⟨found, n, run, rfl⟩
      cases run
      rfl

/-- After a resolution that comes to its end a second one, on the same program with its bindings and
with a new log, comes to its end with the same table. It changes nothing but bindings and log, keeps
what is bound, and records the same notes and among others the same errors. It binds and records
nothing else exactly if the first run missed no link. -/
theorem resolve_again {p : Program} {c : Compilation} {t : ScopeTable}
    (resolved : (p.start false).resolve = (c, t, .ok ())) :
    ∃ log bindings, (c.onLog {}).resolve =
      ({ c with log := log, bindings := bindings }, t, .ok ()) ∧
      c.bindings.Within bindings ∧ c.log.errors.Sublist log.errors ∧ log.notes = c.log.notes ∧
      ((∀ s, bindings.get? s = c.bindings.get? s) ∧ log = c.log ↔
        ∀ l ∈ p.links, ¬ Missed c.bindings.get? l) := by
  obtain ⟨found, m, run, rfl⟩ := (Compilation.resolve_eq_iff rfl).mp resolved
  obtain ⟨found', n, again, adds⟩ := again_resolve run
  refine ⟨found', n, (Compilation.resolve_eq_iff rfl).mpr ⟨found', n, again, rfl⟩,
    fun _ _ => adds.grown.kept, adds.errors, adds.notes, ?_⟩
  constructor
  · rintro ⟨bindings, log⟩ l hl missed
    rcases adds.loud ⟨l, hl, missed⟩ with more | ⟨s, free, filled⟩
    · rw [log] at more
      exact Nat.lt_irrefl _ more
    · rw [bindings s, free] at filled
      cases filled
  · intro none
    obtain ⟨log, rfl⟩ := adds.quiet fun ⟨l, hl, missed⟩ => none l hl missed
    exact ⟨fun _ => rfl, log⟩

/-- The parameter `b` of the first class has the second one for its type, whose field `c` is used.
The type of that field is bound only after the first class. -/
def lateFieldText : List Char :=
  ("class A \x7b void m(B b) \x7b int x = b.c.d; int y = b.c.e; \x7d \x7d " ++
    "class B \x7b C c; \x7d class C \x7b int d; \x7d").toList

theorem lateFieldText_runs : ∃ p c t c' t', Program.ofText? lateFieldText = .ok p ∧
    (p.start false).resolve = (c, t, .ok ()) ∧ (c.onLog {}).resolve = (c', t', .ok ()) ∧
      c'.log.errors ≠ c.log.errors ∧
        ∃ slot ∈ p.slots, c'.bindings.get? slot ≠ c.bindings.get? slot := by
  obtain ⟨p, parsed, h⟩ := exists_ok_of_any (x := Program.ofText? lateFieldText)
    (P := fun p =>
      match (p.start false).resolve with
      | (c, _, .ok _) =>
        match (c.onLog {}).resolve with
        | (c', _, .ok _) => decide (c'.log.errors ≠ c.log.errors) &&
          p.slots.any fun slot => decide (c'.bindings.get? slot ≠ c.bindings.get? slot)
        | _ => false
      | _ => false)
    (by decide +kernel)
  split at h
  · rename_i c t u resolved
    split at h
    · rename_i c' t' u' again
      simp only [Bool.and_eq_true, List.any_eq_true, decide_eq_true_eq] at h
      obtain ⟨errors, slot, hs, changed⟩ := h
      exact ⟨p, c, t, c', t', parsed, resolved, again, errors, slot, hs, changed⟩
    · cases h
  · cases h

/-- A second resolution that binds what the first one left unbound, and reports what that did
not. -/
theorem lateFieldText_changes : ∃ p c t c' t', Program.ofText? lateFieldText = .ok p ∧
    (p.start false).resolve = (c, t, .ok ()) ∧ (c.onLog {}).resolve = (c', t', .ok ()) ∧
      c'.log.errors ≠ c.log.errors ∧
      ¬ ∀ slot ∈ p.slots, c'.bindings.get? slot = c.bindings.get? slot := by
  obtain ⟨p, c, t, c', t', parsed, resolved, again, errors, slot, hs, changed⟩ := lateFieldText_runs
  exact ⟨p, c, t, c', t', parsed, resolved, again, errors, fun same => changed (same slot hs)⟩

/-- The first one missed a link there. -/
theorem lateFieldText_missed : ∃ p c t, Program.ofText? lateFieldText = .ok p ∧
    (p.start false).resolve = (c, t, .ok ()) ∧ (∃ l ∈ p.links, Missed c.bindings.get? l) ∧
      ∃ log bindings, (c.onLog {}).resolve =
        ({ c with log := log, bindings := bindings }, t, .ok ()) ∧
        c.bindings.Within bindings ∧ c.log.errors.Sublist log.errors ∧ log.notes = c.log.notes ∧
        log.errors ≠ c.log.errors := by
  obtain ⟨p, c, t, c', t', parsed, resolved, again, errors, -⟩ := lateFieldText_runs
  obtain ⟨log, bindings, again', within, more, notes, exact⟩ := resolve_again resolved
  cases again.symm.trans again'
  refine ⟨p, c, t, parsed, resolved, ?_, log, bindings, again', within, more, notes, errors⟩
  by_contra none
  obtain ⟨-, same⟩ := exact.mpr fun l hl missed => none ⟨l, hl, missed⟩
  exact errors (congrArg Log.errors same)

end JamCompiler

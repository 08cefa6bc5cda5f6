import JamCompiler.Proofs.Binding
import JamCompiler.Proofs.Emission.Objects
import JamCompiler.Proofs.Typing.Types

/-!
# Accepted programs

What is known of a text that compiles: its program is without foreign parts, its names are settled
and all references bound, its bodies are well typed, and the object code consists of the code of its
methods, each of which has a return at its end.
-/

namespace JamCompiler

open Machine Pass Emission Generation

/-- What is known in a compilation. -/
def Compilation.env (c : Compilation) : Env :=
  ⟨c.bindings.get?, c.locations.get?, c.layouts.get?⟩

/-- A program that has passed all checks, with what its names are bound to. -/
structure Program.Checked (p : Program) (bound : Site → Option Decl) : Prop where
  written : p.Written
  resolvable : p.Resolvable
  settled : p.Settled bound
  typed : p.WellTyped bound
  bound : Typing.AllBound bound p.uses

/-- A program that was compiled to object code. -/
structure Accepted (p : Program) (c : Compilation) (o : ObjectCode) : Prop
    extends p.Checked c.bindings.get? where
  generated : ∃ main code, Generated p c.program c.env main code o

/-- A run of a pass that comes to its end without adding an error is a strict run as well. -/
theorem Pass.Plain.strict_of_clean {σ α : Type} {R : Fault → Prop} {S : Option Fault → Prop}
    {x : Pass σ α} (h : Plain R S x) {log : Log} {s : σ} {a : α} {w : Work σ}
    (run : EStateM.run x ⟨log, s⟩ = .ok a w) (clean : w.log.isClean) :
    log.errors = [] ∧ ∃ v, EStateM.run x (strict s) = .ok a v ∧ v.own = w.own := by
  have none : w.log.errors = [] := List.isEmpty_iff.mp clean
  obtain ⟨more, errors, -⟩ := h.ended run
  obtain ⟨old, -⟩ := List.append_eq_nil_iff.mp (errors.symm.trans none)
  exact ⟨old, (h.clean_iff _ _ _ _).mp ⟨w, run, rfl, none.trans old.symm⟩⟩

namespace Typing

variable {bound : Site → Option Decl} {p : Program} {log : Log} {w : Work (SiteMap ValueType)}
  {answer : Except Stop Unit}

theorem plain_check (bound : Site → Option Decl) (p : Program) : Types True True (check bound p) :=
  types_check (fun _ _ _ _ _ _ _ _ => trivial) fun _ => trivial

/-- A check that adds no error comes to its end. -/
theorem ended_of_clean (checked : (check bound p).run log {} = (w, answer))
    (clean : w.log.errors = log.errors) : answer = .ok () := by
  unfold Pass.run at checked
  split at checked
  · cases checked
    rfl
  · rename_i stop v stopped
    cases checked
    cases stop with
    | missingArgument => obtain ⟨⟨⟩, -⟩ | ⟨-, f, ⟨⟩, -⟩ := (plain_check bound p).missed stopped
    | aborted d =>
      obtain ⟨more, errors, -⟩ := (plain_check bound p).aborted stopped
      simp [errors] at clean

/-- A check adds no error exactly if the program is well typed, whatever its log. -/
theorem clean_iff_wellTyped (checked : (check bound p).run log {} = (w, answer)) :
    w.log.errors = log.errors ↔ p.WellTyped bound := by
  have decides := check_decides bound p
  have clean_iff := (plain_check bound p).clean_iff log {}
  constructor
  · intro clean
    obtain rfl := ended_of_clean checked clean
    obtain ⟨v, strictly, -⟩ := (clean_iff w.own ()).mp ⟨w, run_eq_ok checked, rfl, clean⟩
    exact decides.only strictly
  · intro typed
    obtain ⟨⟨⟩, m, strictly, -⟩ := decides.ends typed
    obtain ⟨v, run, -, clean⟩ := (clean_iff m ()).mpr ⟨_, strictly, rfl⟩
    unfold Pass.run at checked
    rw [run] at checked
    cases checked
    exact clean

end Typing

namespace Compilation

variable {c c' : Compilation}

/-- Resolution changes only the log and the bindings. -/
theorem resolve_keeps {t : ScopeTable} {answer : Except Stop Unit}
    (resolved : c.resolve = (c', t, answer)) :
    c' = { c with log := c'.log, bindings := c'.bindings } := by
  obtain ⟨w, -, -, rfl⟩ := run_of_resolve resolved
  rfl

/-- A check changes only the log and the types. -/
theorem check_keeps {answer : Except Stop Unit}
    (checked : c.check = (c', answer)) : c' = { c with log := c'.log, types := c'.types } := by
  obtain ⟨w, -, rfl⟩ := run_of_check checked
  rfl

/-- A check without errors is a strict one, and changes only the log and the types. -/
theorem typed_of_check (checked : c.check = (c', .ok ())) (clean : c'.log.isClean)
    (written : c.program.Written) (start : c.types = {}) :
    c.program.WellTyped c.bindings.get? ∧ Typing.AllBound c.bindings.get? c.program.uses ∧
      c' = { c with log := c'.log, types := c'.types } := by
  obtain ⟨w, run, rfl⟩ := run_of_check checked
  have ended := run_eq_ok run
  have types : Typing.Types True False (Typing.check c.bindings.get? c.program) :=
    Typing.types_check (fun _ _ _ _ _ _ _ _ => trivial) fun foreign => foreign written
  obtain ⟨-, v, strictly, -⟩ := types.strict_of_clean ended clean
  rw [start] at strictly
  exact ⟨(Typing.check_decides _ _).only strictly, (Typing.needs_check c.program).holds ended, rfl⟩

/-- What a generation without errors makes. -/
theorem generated_of_generate {o : ObjectCode} (generated : c.generate = (c', .ok o)) :
    c'.bindings = c.bindings ∧ ∃ main code, Generated c.program c'.program c'.env main code o := by
  obtain ⟨w, run, rfl⟩ := run_of_generate generated
  exact ⟨rfl, (ends_generate c.bindings.get?).holds (run_eq_ok run)⟩

end Compilation

/-- A program whose names were resolved and whose types were checked without an error has passed all
checks, and nothing has a place yet. -/
theorem Program.checked_of_stages {text : List Char} {failFast : Bool} {p : Program}
    {c c₁ : Compilation} {t : ScopeTable} (parsed : Program.ofText? text = .ok p)
    (resolved : (p.start failFast).resolve = (c, t, .ok ())) (clean : c.log.isClean)
    (checked : c.check = (c₁, .ok ())) (clean₁ : c₁.log.isClean) :
    p.Checked c₁.bindings.get? ∧ c₁.program = p ∧ c₁.locations = {} ∧ c₁.layouts = {} := by
  have written := Program.written_of_ofText parsed
  have shape := Compilation.resolve_keeps resolved
  obtain ⟨resolvable, settled, program, -⟩ := Program.settled_of_resolve resolved clean
  have types : c.types = {} := by rw [shape]; rfl
  obtain ⟨typed, bound, shape₁⟩ :=
    Compilation.typed_of_check checked clean₁ (program ▸ written) types
  have bindings : c₁.bindings = c.bindings := by rw [shape₁]
  rw [program] at typed bound
  rw [← bindings] at settled typed bound
  refine ⟨⟨written, resolvable, settled, typed, bound⟩, ?_, ?_, ?_⟩ <;> rw [shape₁]
  · exact program
  · rw [shape]
    rfl
  · rw [shape]
    rfl

/-- A result of success comes from stages that all came to their ends without an error. -/
theorem stages_of_compile {text : List Char} {failFast : Bool} {r : CompileResult}
    (h : compile text failFast = .ok r) (ok : r.status = .success) :
    ∃ p c c₁ c₂ t o, Program.ofText? text = .ok p ∧
      (p.start failFast).resolve = (c, t, .ok ()) ∧ c.log.isClean ∧
      c.check = (c₁, .ok ()) ∧ c₁.log.isClean ∧ c₁.generate = (c₂, .ok o) ∧
      r.compilation = some c₂ ∧ r.object = some o := by
  unfold compile at h
  cases parsed : Program.ofText? text with
  | error e =>
    rw [parsed] at h
    cases e <;> cases h
    cases ok
  | ok p =>
    simp only [parsed] at h
    cases resolved : (p.start failFast).resolve with
    | mk c rest =>
      obtain ⟨t, answer⟩ := rest
      have start : ({ program := p, log := { failFast := failFast } } : Compilation).resolve =
        (c, t, answer) := resolved
      simp only [Program.compile, start] at h
      obtain ⟨-, rfl | ⟨⟨⟩, rfl, clean, h⟩⟩ := CompileResult.of_afterStage h
      · cases ok
      cases checked : c.check with
      | mk c₁ answer =>
        simp only [checked] at h
        obtain ⟨-, rfl | ⟨⟨⟩, rfl, clean₁, h⟩⟩ := CompileResult.of_afterStage h
        · cases ok
        cases generated : c₁.generate with
        | mk c₂ answer =>
          simp only [generated] at h
          obtain ⟨-, rfl | ⟨o, rfl, clean₂, h⟩⟩ := CompileResult.of_afterStage h
          · cases ok
          cases h
          exact ⟨p, c, c₁, c₂, t, o, rfl, resolved, clean, checked, clean₁, generated, rfl, rfl⟩

/-- What is known of a text that compiles. -/
theorem accepted_of_compile {text : List Char} {failFast : Bool} {r : CompileResult}
    (h : compile text failFast = .ok r) (ok : r.status = .success) :
    ∃ p c o, Program.ofText? text = .ok p ∧ r.compilation = some c ∧ r.object = some o ∧
      Accepted p c o := by
  obtain ⟨p, c, c₁, c₂, t, o, parsed, resolved, clean, checked, clean₁, generated, compilation,
    object⟩ := stages_of_compile h ok
  obtain ⟨passed, program, -⟩ := Program.checked_of_stages parsed resolved clean checked clean₁
  obtain ⟨same, made⟩ := Compilation.generated_of_generate generated
  rw [program] at made
  rw [← same] at passed
  exact ⟨p, c₂, o, parsed, compilation, object, passed, made⟩

/-- A compilation of which something is known by evaluation. -/
theorem exists_compiled_of_any (text : List Char) {P : Program → Compilation → ObjectCode → Bool}
    (h : (compile text false).toOption.any (fun r => r.status = .success &&
      (Program.ofText? text).toOption.any fun p =>
        r.compilation.any fun c => r.object.any (P p c))) :
    ∃ r, compile text false = .ok r ∧ r.status = .success ∧
      ∃ p c o, Program.ofText? text = .ok p ∧ r.compilation = some c ∧ r.object = some o ∧
        P p c o = true := by
  obtain ⟨r, compiled, ok⟩ := exists_ok_of_any h
  obtain ⟨success, left⟩ := Bool.and_eq_true_iff.mp ok
  obtain ⟨p, parsed, left⟩ := exists_ok_of_any left
  obtain ⟨c, compilation, left⟩ := (Option.any_eq_true _ _).mp left
  obtain ⟨o, object, known⟩ := (Option.any_eq_true _ _).mp left
  exact ⟨r, compiled, of_decide_eq_true success, p, c, o, parsed, compilation, object, known⟩

end JamCompiler

import JamCompiler.Compile
import JamCompiler.Proofs.Naming.Completeness
import JamCompiler.Proofs.Stages

/-!
# What a resolution without errors leaves unbound

Typing ends only where every reference it meets is bound, whatever its log: `Needs` says what must
hold for a run to come to its end. Together with the completeness of binding this decides when
typing meets an unbound reference, `compile_binds`: after a resolution without errors it does so
exactly if some reference has a forward link.
-/

namespace JamCompiler

open Pass

/-- No run of a pass comes to its end unless something holds. -/
structure Pass.Needs {σ α : Type} (x : Pass σ α) (P : Prop) : Prop where
  holds : ∀ {w v : Work σ} {a : α}, EStateM.run x w = .ok a v → P

namespace Pass.Needs

variable {σ α β : Type} {x : Pass σ α} {f : α → Pass σ β} {P Q : Prop}

theorem of (x : Pass σ α) (h : P) : Needs x P := ⟨fun _ => h⟩

theorem fatal {fault : Fault} {pos : Nat} : Needs (Pass.fatal fault pos : Pass σ α) P :=
  ⟨fun run => by cases run⟩

theorem imp (h : Needs x P) (imp : P → Q) : Needs x Q := ⟨fun run => imp (h.holds run)⟩

theorem first (h : Needs x P) : Needs (x >>= f) P := by
  refine ⟨fun run => ?_⟩
  rw [EStateM.run_bind] at run
  split at run
  · exact h.holds (by assumption)
  · cases run

theorem next (h : ∀ a, Needs (f a) P) : Needs (x >>= f) P := by
  refine ⟨fun run => ?_⟩
  rw [EStateM.run_bind] at run
  split at run
  · exact (h _).holds run
  · cases run

theorem bind (h : Needs x P) (h' : ∀ a, Needs (f a) Q) : Needs (x >>= f) (P ∧ Q) :=
  ⟨fun run => ⟨h.first.holds run, (next h').holds run⟩⟩

theorem forM {γ : Type} {g : γ → Pass σ Unit} {R : γ → Prop} (xs : List γ)
    (h : ∀ c ∈ xs, Needs (g c) (R c)) : Needs (xs.forM g) (∀ c ∈ xs, R c) := by
  induction xs with
  | nil => exact of _ (by simp)
  | cons c rest ih =>
    have ⟨here, later⟩ := List.forall_mem_cons.mp h
    exact (here.bind fun _ => ih later).imp List.forall_mem_cons.mpr

end Pass.Needs

namespace Typing

/-- The references among some uses are bound. -/
def AllBound (bound : Site → Option Decl) (uses : List Use) : Prop :=
  ∀ u ∈ uses, ∀ l ∈ u.references, (bound l.1).isSome

variable {bound : Site → Option Decl}

theorem allBound_nil : AllBound bound [] := by simp [AllBound]

theorem allBound_append {us vs : List Use} (h : AllBound bound us ∧ AllBound bound vs) :
    AllBound bound (us ++ vs) := List.forall_mem_append.mpr h

/-- A use without references. -/
theorem allBound_cons {u : Use} {us : List Use} (none : u.references = [])
    (h : AllBound bound us) : AllBound bound (u :: us) :=
  List.forall_mem_cons.mpr ⟨by simp [none], h⟩

/-- A use of one reference. -/
theorem allBound_ref {u : Use} {us : List Use} {site : Site} {r : Reference}
    (one : u.references = [(site, r)]) (h : (bound site).isSome ∧ AllBound bound us) :
    AllBound bound (u :: us) :=
  List.forall_mem_cons.mpr ⟨by simpa [one] using h.1, h.2⟩

theorem needs_declOf {ctx : Context} (site : Site) (r : Reference) :
    Needs (declOf ctx site r) (ctx.bound site).isSome := by
  unfold declOf
  cases ctx.bound site with
  | some d => exact .of _ rfl
  | none => exact .fatal

theorem needs_checkValue {ctx : Context} (site : Site) (r : Reference) :
    Needs (checkValue ctx site r) (ctx.bound site).isSome := (needs_declOf site r).first

theorem needs_checkTarget {ctx : Context} (site : Site) (r : Reference) :
    Needs (checkTarget ctx site r) (ctx.bound site).isSome := (needs_declOf site r).first

mutual

/-- An expression is checked to its end only if its references are bound. -/
theorem needs_checkExpr {ctx : Context} {names : Resolving.Context} {locals : Scope} {site : Site}
    (e : Expr) : Needs (checkExpr ctx site e) (AllBound ctx.bound (e.uses names locals site)) := by
  match e with
  | .int .. | .bool .. | .null .. => exact .of _ allBound_nil
  | .unknown .. => exact .fatal
  | .unary op operand pos => exact (needs_checkExpr operand).first
  | .binary op left right pos =>
    exact ((needs_checkExpr left).bind fun _ => (needs_checkExpr right).first).imp allBound_append
  | .ref r pos =>
    exact (needs_checkValue _ r).first.imp fun h => allBound_ref rfl ⟨h, allBound_nil⟩
  | .index r index pos =>
    exact ((needs_checkValue _ r).bind fun _ => (needs_checkExpr index).first).imp
      (allBound_ref rfl)
  | .call method args pos =>
    exact ((needs_declOf _ method).bind fun _ => (needs_checkArgs args).first).imp
      (allBound_ref rfl)
  | .newObject type pos => exact .of _ (allBound_cons rfl allBound_nil)
  | .newArray element size pos => exact (needs_checkExpr size).first.imp (allBound_cons rfl)

theorem needs_checkArgs {ctx : Context} {names : Resolving.Context} {locals : Scope} {call : Site}
    {k : Nat} (args : List Expr) :
    Needs (checkArgs ctx call k args)
      (AllBound ctx.bound (Expr.argUses names locals call k args)) := by
  match args with
  | [] => exact .of _ allBound_nil
  | e :: rest =>
    exact ((needs_checkExpr e).bind fun _ => (needs_checkArgs rest).first).imp allBound_append

end

theorem needs_checkCondition {ctx : Context} {names : Resolving.Context} {locals : Scope}
    {site : Site} (statement : String) (cond : Expr) :
    Needs (checkCondition ctx site statement cond)
      (AllBound ctx.bound (cond.uses names locals site)) :=
  (needs_checkExpr cond).first

mutual

/-- So is a statement. -/
theorem needs_checkStmt {ctx : Context} {names : Resolving.Context} {locals : Scope} {site : Site}
    (s : Stmt) : Needs (checkStmt ctx site s) (AllBound ctx.bound (s.uses names locals site)) := by
  match s with
  | .unknown .. => exact .fatal
  | .block stmts pos => exact (needs_checkStmts stmts).first
  | .declare var init pos =>
    exact (needs_checkExpr init).first.imp fun h => allBound_cons rfl (allBound_cons rfl h)
  | .assign target value pos =>
    exact ((needs_checkTarget _ target).bind fun _ => (needs_checkExpr value).first).imp
      (allBound_ref rfl)
  | .assignIndex target index value pos =>
    exact ((needs_checkTarget _ target).bind fun _ => (needs_checkExpr index).bind fun _ =>
      (needs_checkExpr value).first).imp fun h => allBound_ref rfl ⟨h.1, allBound_append h.2⟩
  | .call method args pos =>
    exact ((needs_declOf _ method).bind fun _ => (needs_checkArgs args).first).imp
      (allBound_ref rfl)
  | .ret none pos => exact .of _ allBound_nil
  | .ret (some value) pos => exact (needs_checkExpr value).first.first
  | .ifThen cond body pos | .loop cond body pos =>
    exact ((needs_checkCondition _ cond).bind fun _ => (needs_checkStmt body).first).imp fun h =>
      allBound_append ⟨h.1, allBound_cons rfl h.2⟩
  | .ifElse cond body other pos =>
    exact ((needs_checkCondition _ cond).bind fun _ => (needs_checkStmt body).bind fun _ =>
      (needs_checkStmt other).first).imp fun h =>
        allBound_append ⟨h.1, allBound_cons rfl (allBound_append ⟨h.2.1, allBound_cons rfl h.2.2⟩)⟩

theorem needs_checkStmts {ctx : Context} {names : Resolving.Context} {locals : Scope} {block : Site}
    {k : Nat} (stmts : List Stmt) : Needs (checkStmts ctx block k stmts)
      (AllBound ctx.bound (Stmt.usesFrom names locals block.stmt k stmts)) := by
  match stmts with
  | [] => exact .of _ allBound_nil
  | s :: rest =>
    exact ((needs_checkStmt s).bind fun _ => needs_checkStmts rest).imp allBound_append

end

theorem needs_checkBody {ctx : Context} (names : Resolving.Context) (locals : Scope) {method : Site}
    {k : Nat} (stmts : List Stmt) : Needs (checkBody ctx method k stmts)
      (AllBound ctx.bound (Stmt.usesFrom names locals method.body k stmts)) := by
  induction stmts generalizing locals k with
  | nil => exact .of _ allBound_nil
  | cons s rest ih => exact ((needs_checkStmt s).bind fun _ => ih _).imp allBound_append

/-- A program is checked to its end only if every reference in it is bound. -/
theorem needs_check (p : Program) : Needs (check bound p) (AllBound bound p.uses) := by
  have bodies : Needs (check bound p) (∀ s ∈ p.sitedMethods, ∀ cls,
      AllBound bound (s.2.bodyUses cls s.1)) := by
    refine .forM _ fun s _ => ?_
    exact ⟨fun run cls => (needs_checkBody (s.2.context cls) (s.2.scope s.1) s.2.body).holds run⟩
  refine bodies.imp fun h u hu l hl => ?_
  obtain ⟨⟨cls, c⟩, hc, hu⟩ := List.mem_flatMap.mp hu
  obtain ⟨site, m, hm, hu⟩ := ClassDecl.mem_bodyUses hu hl
  exact h (site, m) (List.mem_flatMap.mpr ⟨(cls, c), hc, hm⟩) _ u hu l hl

end Typing

/-- The compilation that a program starts from. -/
def Program.start (p : Program) (failFast : Bool) : Compilation :=
  { program := p, log := { failFast := failFast } }

/-- A stage comes to its end if that can be computed. -/
theorem exists_ended_of_isOk {ε α : Type} {x : α × Except ε Unit} (h : x.2.isOk = true) :
    ∃ a, x = (a, .ok ()) := by
  obtain ⟨a, answer⟩ := x
  cases answer with
  | error stop => cases h
  | ok u => exact ⟨a, rfl⟩

/-- A text is read and resolved without errors, and what it becomes passes a check, if that can be
computed. -/
theorem exists_resolved_of_check (text : List Char) {P : Program → Compilation → Bool}
    (h : (Program.ofText? text).toOption.any (fun p => (p.start false).resolve.2.2.isOk &&
      (p.start false).resolve.1.log.isClean && P p (p.start false).resolve.1) = true) :
    ∃ p c t, Program.ofText? text = .ok p ∧ (p.start false).resolve = (c, t, .ok ()) ∧
      c.log.isClean ∧ P p c := by
  obtain ⟨p, parsed, ok⟩ := exists_ok_of_any h
  cases resolved : (p.start false).resolve with
  | mk c rest =>
    rw [resolved, Bool.and_eq_true, Bool.and_eq_true] at ok
    obtain ⟨⟨ended, clean⟩, passes⟩ := ok
    obtain ⟨t, rfl⟩ := exists_ended_of_isOk ended
    exact ⟨p, c, t, parsed, resolved, clean, passes⟩

section Resolution

variable {p : Program} {failFast : Bool} {c : Compilation} {t : ScopeTable}

/-- A resolution without errors settles the program and changes only bindings and notes. -/
theorem Program.settled_of_resolve (resolved : (p.start failFast).resolve = (c, t, .ok ()))
    (clean : c.log.isClean) : p.Resolvable ∧ p.Settled c.bindings.get? ∧
      c.program = p ∧ c.log.failFast = failFast := by
  have errors : c.log.errors = [] := List.isEmpty_iff.mp clean
  simp only [Compilation.resolve, Compilation.runResolving, start, Pass.run] at resolved
  cases run : EStateM.run (Resolving.resolve p) ⟨{ failFast := failFast }, {}⟩ with
  | error stop w =>
    rw [run] at resolved
    cases resolved
  | ok u w =>
    rw [run] at resolved
    obtain ⟨rfl, -⟩ := Prod.mk.inj resolved
    have plain := Resolving.names_resolve p
    obtain ⟨v, strictly, own⟩ := (plain.clean_iff _ _ _ _).mp ⟨w, run, rfl, errors⟩
    obtain ⟨resolvable, n, rfl, settled⟩ := (Resolving.resolve_decides p).of_run strictly
    obtain ⟨-, -, -, -, mode⟩ := plain.ended run
    refine ⟨resolvable, ?_, rfl, mode⟩
    rw [← own]
    exact settled

/-- What checking adds to the errors where every reference is bound: other faults of types. -/
theorem Compilation.check_reports (written : c.program.Written)
    (bound : Typing.AllBound c.bindings.get? c.program.uses)
    (finished : c.check.2 ≠ .error .missingArgument) : ∀ d ∈ c.check.1.log.errors,
      d ∈ c.log.errors ∨ ∃ f, d.fault = .typing f ∧ f ≠ .unresolved := by
  have types : Typing.Types False False (Typing.check c.bindings.get? c.program) :=
    Typing.types_check (fun k b hk u hu l hl none => by
      have use : u ∈ c.program.uses :=
        List.mem_flatMap.mpr ⟨(.classAt k, b), Program.mem_sitedClasses.mpr ⟨k, hk, rfl⟩, hu⟩
      have some := bound u use l hl
      rw [none] at some
      cases some) (fun foreign => foreign written)
  intro d hd
  rcases types.recorded rfl finished d hd with h | h | h
  · exact .inl h
  · exact .inr h
  · rcases h with ⟨-, ⟨⟩⟩ | ⟨⟨⟩, -⟩

/-- What generation adds to the errors: faults of code. -/
theorem Compilation.generate_reports (finished : c.generate.2 ≠ .error .missingArgument) :
    ∀ d ∈ c.generate.1.log.errors, d ∈ c.log.errors ∨ ∃ f, d.fault = .code f := by
  intro d hd
  rcases (Generation.codes_generate c.bindings.get?).recorded rfl finished d hd with h | h | h
  · exact .inl h
  · exact .inr h
  · exact .inr (h _ rfl)

/-- A result after a stage is that of the stage, or that of the stages after it. -/
theorem CompileResult.of_afterStage {α : Type} {answer : Except Stop α}
    {next : α → Except CompileFailure CompileResult} {r : CompileResult}
    (h : afterStage c answer next = .ok r) : answer ≠ .error .missingArgument ∧
      (r = incorrect c ∨ ∃ a, answer = .ok a ∧ c.log.isClean ∧ next a = .ok r) := by
  cases answer with
  | error stop =>
    cases stop with
    | missingArgument => cases h
    | aborted d =>
      cases h
      exact ⟨by simp, .inl rfl⟩
  | ok a =>
    refine ⟨by simp, ?_⟩
    simp only [afterStage] at h
    split at h
    · rename_i clean
      exact .inr ⟨a, rfl, clean, h⟩
    · cases h
      exact .inl rfl

/-- What is left of a compilation after a resolution without errors. -/
theorem Program.compile_of_resolve (resolved : (p.start failFast).resolve = (c, t, .ok ()))
    (clean : c.log.isClean) : p.compile failFast =
      CompileResult.afterStage c.check.1 c.check.2 fun _ =>
        CompileResult.afterStage c.check.1.generate.1 c.check.1.generate.2 fun object =>
          .ok { status := .success, log := c.check.1.generate.1.log
                compilation := some c.check.1.generate.1, object := some object } := by
  have resolved : ({ program := p, log := { failFast := failFast } } : Compilation).resolve =
    (c, t, .ok ()) := resolved
  simp only [compile, resolved]
  rw [CompileResult.afterStage, if_pos clean]

/-- Where every reference is bound, a compilation never reports an unresolved one. -/
theorem Program.compile_of_bound (written : p.Written)
    (resolved : (p.start failFast).resolve = (c, t, .ok ())) (clean : c.log.isClean)
    (bound : Typing.AllBound c.bindings.get? p.uses) {r : CompileResult}
    (h : p.compile failFast = .ok r) : ∀ d ∈ r.log.errors, d.fault ≠ .typing .unresolved := by
  obtain ⟨-, -, program, -⟩ := settled_of_resolve resolved clean
  have checked : c.check.2 ≠ .error .missingArgument → ∀ d ∈ c.check.1.log.errors,
      d.fault ≠ .typing .unresolved := by
    intro finished d hd
    rcases Compilation.check_reports (program ▸ written) (program ▸ bound) finished d hd with
      old | ⟨f, fault, other⟩
    · rw [List.isEmpty_iff.mp clean] at old
      cases old
    · rw [fault]
      simpa using other
  have generated : c.check.1.log.isClean → c.check.1.generate.2 ≠ .error .missingArgument →
      ∀ d ∈ c.check.1.generate.1.log.errors, d.fault ≠ .typing .unresolved := by
    intro clean finished d hd
    rcases Compilation.generate_reports finished d hd with old | ⟨f, fault⟩
    · rw [List.isEmpty_iff.mp clean] at old
      cases old
    · simp [fault]
  rw [compile_of_resolve resolved clean] at h
  obtain ⟨finished, rfl | ⟨-, -, clean', h⟩⟩ := CompileResult.of_afterStage h
  · exact checked finished
  · obtain ⟨finished', rfl | ⟨object, -, -, h⟩⟩ := CompileResult.of_afterStage h
    · exact generated clean' finished'
    · cases h
      exact generated clean' finished'

/-- Where a reference is unbound, a compilation fails; if it goes on after errors, it reports the
unresolved reference. -/
theorem Program.compile_of_unbound (written : p.Written)
    (resolved : (p.start failFast).resolve = (c, t, .ok ())) (clean : c.log.isClean)
    (unbound : ¬ Typing.AllBound c.bindings.get? p.uses) :
    ∃ r, p.compile failFast = .ok r ∧ r.status = .incorrect ∧
      (failFast = false → ∃ d ∈ r.log.errors, d.fault = .typing .unresolved) := by
  obtain ⟨-, -, program, mode⟩ := settled_of_resolve resolved clean
  have types : Typing.Types True False (Typing.check c.bindings.get? p) :=
    Typing.types_check (fun _ _ _ _ _ _ _ _ => trivial) fun foreign => foreign written
  have needs : Pass.Needs (Typing.check c.bindings.get? p) _ := Typing.needs_check p
  rw [compile_of_resolve resolved clean]
  have answer : ∃ d, c.check.2 = .error (.aborted d) ∧
      (failFast = false → ∃ d ∈ c.check.1.log.errors, d.fault = .typing .unresolved) := by
    simp only [Compilation.check, program, Pass.run]
    cases run : EStateM.run (Typing.check c.bindings.get? p) ⟨c.log, c.types⟩ with
    | ok u w => exact absurd (needs.holds run) unbound
    | error stop w =>
      cases stop with
      | missingArgument =>
        obtain ⟨⟨⟩, -⟩ | ⟨⟨⟩, -⟩ := types.missed run
      | aborted d =>
        refine ⟨d, rfl, fun lenient => ?_⟩
        obtain ⟨more, errors, -, cause⟩ := types.aborted run
        refine ⟨d, by rw [errors]; simp, ?_⟩
        rcases cause with (⟨fault, -⟩ | ⟨⟨⟩, -⟩) | ⟨strictly, -⟩
        · exact Option.some.inj fault
        · rw [mode, lenient] at strictly
          cases strictly
  obtain ⟨d, stopped, reported⟩ := answer
  rw [stopped]
  exact ⟨_, rfl, rfl, reported⟩

/-- All references are bound exactly if there is no forward link. -/
theorem Program.allBound_iff {bound : Site → Option Decl} (settled : p.Settled bound)
    (resolvable : p.Resolvable) :
    Typing.AllBound bound p.uses ↔ ∀ l ∈ p.links, ¬ Forward bound l := by
  constructor
  · intro all l hl forward
    obtain ⟨u, hu, r, hr, hl⟩ := mem_links.mp hl
    obtain ⟨k, c, ctx, -, -, whole⟩ := settled.resolved resolvable hu hr
    have some := all u hu r hr
    rw [whole.bound_self, (whole.open_iff resolvable).mpr ⟨l, hl, forward⟩] at some
    cases some
  · intro none u hu r hr
    obtain ⟨k, c, ctx, -, -, whole⟩ := settled.resolved resolvable hu hr
    obtain ⟨o, meaning⟩ := Option.isSome_iff_exists.mp whole.ok
    rw [whole.bound_self, meaning]
    cases o with
    | some d => rfl
    | none =>
      obtain ⟨l, hl, forward⟩ := (whole.open_iff resolvable).mp meaning
      exact absurd forward (none l (mem_links.mpr ⟨u, hu, r, hr, hl⟩))

end Resolution

/-- After a resolution without errors every class name of a written type is bound, and so is every
reference with its name, unless one of its links is forward. A compilation reports an unresolved
reference only where there is a forward link, and there it does so if it goes on after errors. -/
theorem resolution_binds_unless_forward {text : List Char} {failFast : Bool} {p : Program}
    {c : Compilation} {t : ScopeTable} (parsed : Program.ofText? text = .ok p)
    (resolved : (p.start failFast).resolve = (c, t, .ok ())) (clean : c.log.isClean) :
    (∀ n ∈ p.classNames, (c.bindings.get? n.1).isSome) ∧
    (∀ l ∈ p.links, (∀ slot ∈ l.2.slots l.1, (c.bindings.get? slot).isSome) ↔
      ∀ l' ∈ l.2.links l.1, ¬ Forward c.bindings.get? l') ∧
    ((∀ l ∈ p.links, ¬ Forward c.bindings.get? l) → ∀ r, compile text failFast = .ok r →
      ∀ d ∈ r.log.errors, d.fault ≠ .typing .unresolved) ∧
    ((∃ l ∈ p.links, Forward c.bindings.get? l) → ∃ r, compile text failFast = .ok r ∧
      r.status = .incorrect ∧
      (failFast = false → ∃ d ∈ r.log.errors, d.fault = .typing .unresolved)) := by
  obtain ⟨resolvable, settled, -, -⟩ := Program.settled_of_resolve resolved clean
  have written := Program.written_of_ofText parsed
  have whole : compile text failFast = p.compile failFast := by simp only [compile, parsed]
  have all := Program.allBound_iff settled resolvable
  refine ⟨fun n hn => settled.classNames_bound resolvable hn,
    fun l hl => settled.bound_iff resolvable hl, fun none r h => ?_, fun ⟨l, hl, forward⟩ => ?_⟩
  · rw [whole] at h
    exact Program.compile_of_bound written resolved clean (all.mpr none) h
  · rw [whole]
    exact Program.compile_of_unbound written resolved clean
      fun bound => all.mp bound l hl forward

/-- The field `b` has a later class for its type, whose field `c` is used. -/
def forwardText : List Char :=
  ("class A \x7b B b; void m() \x7b int x = b.c.d; \x7d \x7d class B \x7b C c; \x7d " ++
    "class C \x7b int d; public static void main(String[] a) \x7b \x7d \x7d").toList

theorem forwardText_resolves : ∃ p c t, Program.ofText? forwardText = .ok p ∧
    (p.start false).resolve = (c, t, .ok ()) ∧ c.log.isClean ∧
      ∃ l ∈ p.links, ∃ slot ∈ l.2.slots l.1, (c.bindings.get? slot).isNone := by
  obtain ⟨p, c, t, parsed, resolved, clean, h⟩ := exists_resolved_of_check forwardText
    (P := fun p c =>
      p.links.any fun l => (l.2.slots l.1).any fun slot => (c.bindings.get? slot).isNone)
    (by decide +kernel)
  obtain ⟨l, hl, slots⟩ := List.any_eq_true.mp h
  exact ⟨p, c, t, parsed, resolved, clean, l, hl, List.any_eq_true.mp slots⟩

/-- A resolution without errors that leaves a reference unbound, so that typing reports it. -/
theorem forwardText_unbound : (∃ p c t, Program.ofText? forwardText = .ok p ∧
    (p.start false).resolve = (c, t, .ok ()) ∧ c.log.isClean ∧
      ¬ ∀ l ∈ p.links, ∀ slot ∈ l.2.slots l.1, (c.bindings.get? slot).isSome) ∧
    ∃ r, compile forwardText false = .ok r ∧ ∃ d ∈ r.log.errors, d.fault = .typing .unresolved := by
  obtain ⟨p, c, t, parsed, resolved, clean, l, hl, slot, hs, unbound⟩ := forwardText_resolves
  refine ⟨⟨p, c, t, parsed, resolved, clean, fun all => ?_⟩, ?_⟩
  · have some := all l hl slot hs
    rw [Option.isNone_iff_eq_none.mp unbound] at some
    cases some
  · obtain ⟨r, result, h⟩ := exists_ok_of_any (x := compile forwardText false)
      (P := fun r => r.log.errors.any fun d => d.fault = .typing .unresolved) (by decide +kernel)
    obtain ⟨d, hd, fault⟩ := List.any_eq_true.mp h
    exact ⟨r, result, d, hd, of_decide_eq_true fault⟩

/-- That reference has a forward link. -/
theorem forwardText_forward : ∃ p c t, Program.ofText? forwardText = .ok p ∧
    (p.start false).resolve = (c, t, .ok ()) ∧ c.log.isClean ∧
      (∃ l ∈ p.links, Forward c.bindings.get? l) ∧
      ∃ r, compile forwardText false = .ok r ∧ r.status = .incorrect ∧
        ∃ d ∈ r.log.errors, d.fault = .typing .unresolved := by
  obtain ⟨p, c, t, parsed, resolved, clean, l, hl, slot, hs, unbound⟩ := forwardText_resolves
  obtain ⟨-, bound, -, fails⟩ := resolution_binds_unless_forward parsed resolved clean
  have forward : ∃ l' ∈ p.links, Forward c.bindings.get? l' := by
    by_contra none
    have some := (bound l hl).mpr (fun l' hl' forward =>
      none ⟨l', Program.links_of_link hl hl', forward⟩) slot hs
    rw [Option.isNone_iff_eq_none.mp unbound] at some
    cases some
  obtain ⟨r, result, status, reported⟩ := fails forward
  exact ⟨p, c, t, parsed, resolved, clean, forward, r, result, status, reported rfl⟩

end JamCompiler

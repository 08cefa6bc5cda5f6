import JamCompiler.Proofs.Naming.References
import Mathlib.Data.List.Nodup

/-!
# Laws of scope tables

What holds of a scope table after any operations, taken in any order from the fresh one. An
operation that is refused may be followed by others, also where the refusal stops the pass that
asked for it.

That no name of a parameter or local variable comes twice is kept by every step, because a name is
compared with the innermost scope and with the local scopes around it, which together hold them all.
-/

namespace JamCompiler

/-- An operation on a scope table. -/
inductive TableStep
  | openScope
  | closeScope
  | enter (d : Decl) (pos : Nat)
  | retrieve (name : String)
  | registerClass (c : ClassRef)
  | registerMember (c : ClassRef) (d : Decl)
  | retrieveClass (name : String)
  | retrieveMember (cls name : String)

namespace TableStep

inductive Answer
  | done
  | accepted (yes : Bool)
  | decl (found : Option Decl)
  | cls (found : Option ClassRef)

def work : TableStep → Resolving Answer
  | openScope => do
    Resolving.openScope
    return .done
  | closeScope => do
    Resolving.closeScope
    return .done
  | enter d pos => return .accepted (← Resolving.enter d pos)
  | retrieve name => return .decl ((← Resolving.table).retrieve? name)
  | registerClass c => return .accepted (← Resolving.registerClass c)
  | registerMember c d => return .accepted (← Resolving.registerMember c d)
  | retrieveClass name => return .cls ((← Resolving.table).retrieveClass? name)
  | retrieveMember cls name => return .decl ((← Resolving.table).retrieveMember? cls name)

/-- What a step leaves, also where it stops, and what it answers. -/
def run (step : TableStep) (w : Work Naming) : Work Naming × Except Stop Answer :=
  step.work.run w.log w.own

/-- What some steps leave. -/
def runAll (steps : List TableStep) (w : Work Naming) : Work Naming :=
  steps.foldl (fun w step => (step.run w).1) w

/-- What some steps make of the fresh table. -/
def reached (failFast : Bool) (steps : List TableStep) : Work Naming :=
  runAll steps ⟨{ failFast := failFast }, {}⟩

/-- The answers of a step that reports an error. -/
def Refused : Except Stop Answer → Prop
  | .ok (.accepted yes) => yes = false
  | .ok _ => False
  | .error _ => True

/-- Steps of which each that closes a scope closes one that was opened among them, and which close
all of those. -/
inductive Balanced : List TableStep → Prop
  | nil : Balanced []
  | step {step : TableStep} {rest : List TableStep} :
      step ≠ openScope → step ≠ closeScope → Balanced rest → Balanced (step :: rest)
  | nested {inside rest : List TableStep} :
      Balanced inside → Balanced rest → Balanced (openScope :: inside ++ closeScope :: rest)

/-- What a step makes of a table, unless it is refused. -/
def effect : TableStep → ScopeTable → Option ScopeTable
  | openScope, t => some t.openScope
  | closeScope, t => t.closeScope?.toOption
  | enter d _, t => (t.enter? d).toOption
  | registerClass c, t => (t.registerClass? c).toOption
  | registerMember c d, t => (t.registerMember? c d).toOption
  | retrieve _, t | retrieveClass _, t | retrieveMember .., t => some t

end TableStep

namespace ScopeTable

variable {t u : ScopeTable} {d : Decl}

/-- That no two parameters or local variables have a name in common. -/
def Distinct (t : ScopeTable) : Prop := (t.locals.map Prod.fst).Nodup

theorem locals_eq_nil (outside : t.level ≤ 2) : t.locals = [] := by
  have none : t.level - 2 = 0 := by omega
  rw [locals, none]
  rfl

theorem scopes_drop (t : ScopeTable) :
    t.scopes.drop paramLevel = (t.inner.take (t.level - 2)).reverse := by
  have inner : t.scopes.drop paramLevel = t.inner.reverse.drop 2 := rfl
  rw [inner, List.drop_reverse]
  rfl

/-- So the scopes of parameters and local variables have no names in common. -/
theorem Distinct.pairwise (h : t.Distinct) :
    ((t.scopes.drop paramLevel).map fun scope => scope.map Prod.fst).Pairwise List.Disjoint := by
  rw [Distinct, locals, List.map_flatten, List.nodup_flatten] at h
  rw [scopes_drop, List.map_reverse, List.pairwise_reverse]
  exact h.2.imp List.disjoint_symm

theorem Distinct.openScope (h : t.Distinct) : t.openScope.Distinct := by
  by_cases inside : 2 ≤ t.level
  · rw [Distinct, locals_openScope inside]
    exact h
  · have outside : t.openScope.level ≤ 2 := by
      rw [level_openScope]
      omega
    rw [Distinct, locals_eq_nil outside]
    exact List.nodup_nil

theorem locals_of_closeScope? (closed : t.closeScope? = .ok u) : u.locals <:+ t.locals := by
  unfold ScopeTable.closeScope? at closed
  split at closed
  · cases closed
  · rename_i scope outer inner
    cases closed
    by_cases inside : 2 ≤ outer.length
    · have level : outer.length + 1 - 2 = outer.length - 2 + 1 := by omega
      simp only [locals, ScopeTable.level, inner, List.length_cons]
      rw [level, List.take_succ_cons, List.flatten_cons]
      exact List.suffix_append scope _
    · rw [locals_eq_nil (t := { t with inner := outer }) (Nat.le_of_not_le inside)]
      exact List.nil_suffix

/-- A declaration that is entered is new in the innermost scope, and stands there in front. -/
theorem entered_of_enter? (entered : t.enter? d = .ok u) : t.current.lookup d.name = none ∧
    ((t.inner = [] ∧ u = { t with predefined := (d.name, d) :: t.predefined }) ∨
      ∃ scope outer, t.inner = scope :: outer ∧
        u = { t with inner := ((d.name, d) :: scope) :: outer }) := by
  unfold enter? at entered
  split at entered
  · cases entered
  · rename_i free
    have new : t.current.lookup d.name = none := Option.not_isSome_iff_eq_none.mp free
    split at entered
    · cases entered
    · split at entered
      · rename_i inner
        cases entered
        exact ⟨new, .inl ⟨inner, rfl⟩⟩
      · rename_i scope outer inner
        cases entered
        exact ⟨new, .inr ⟨scope, outer, inner, rfl⟩⟩

theorem level_of_enter? (entered : t.enter? d = .ok u) : u.level = t.level := by
  obtain ⟨-, ⟨inner, rfl⟩ | ⟨scope, outer, inner, rfl⟩⟩ := entered_of_enter? entered
  · rfl
  · simp only [level, inner, List.length_cons]

theorem Distinct.enter? (h : t.Distinct) (entered : t.enter? d = .ok u) : u.Distinct := by
  by_cases inside : 3 ≤ t.level
  · by_cases free : t.locals.lookup d.name = none
    · rw [enter?_of_free inside free] at entered
      cases entered
      rw [Distinct, locals_push inside, List.map_cons, List.nodup_cons]
      refine ⟨?_, h⟩
      intro taken
      obtain ⟨p, mem, name⟩ := List.mem_map.mp taken
      have absent := List.lookup_eq_none_iff.mp free p mem
      simp [name] at absent
    · obtain ⟨fault, refused⟩ := enter?_of_taken inside free
      rw [refused] at entered
      cases entered
  · have outside : u.level ≤ 2 := by
      rw [level_of_enter? entered]
      omega
    rw [Distinct, locals_eq_nil outside]
    exact List.nodup_nil

/-- Registering leaves the scopes as they are. -/
theorem scopes_of_registerClass? {c : ClassRef} (registered : t.registerClass? c = .ok u) :
    u.predefined = t.predefined ∧ u.inner = t.inner := by
  unfold registerClass? at registered
  split at registered
  · cases registered
  · cases registered
    exact ⟨rfl, rfl⟩

theorem scopes_of_registerMember? {c : ClassRef} (registered : t.registerMember? c d = .ok u) :
    u.predefined = t.predefined ∧ u.inner = t.inner := by
  unfold registerMember? at registered
  split at registered
  · cases registered
  · cases registered
    exact ⟨rfl, rfl⟩

theorem Distinct.of_inner (h : t.Distinct) (inner : u.inner = t.inner) : u.Distinct := by
  have locals : u.locals = t.locals := by rw [locals, locals, level, level, inner]
  rw [Distinct, locals]
  exact h

/-- That a table has the scopes of another, none of them with a name less or another declaration for
it. -/
def Keeps (t u : ScopeTable) : Prop :=
  ∀ (k : Nat) (scope : Scope) (name : String) (d : Decl), t.scopes[k]? = some scope →
    scope.lookup name = some d → ∃ scope', u.scopes[k]? = some scope' ∧ scope'.lookup name = some d

theorem lookup_cons_of_new {scope : Scope} {name : String} {e : Decl}
    (new : scope.lookup d.name = none) (found : scope.lookup name = some e) :
    List.lookup name ((d.name, d) :: scope) = some e := by
  have other : name ≠ d.name := by
    rintro rfl
    rw [found] at new
    cases new
  exact (lookup_cons_of_ne other).trans found

theorem keeps_of_enter? (entered : t.enter? d = .ok u) : t.Keeps u := by
  intro k scope name e here found
  obtain ⟨new, ⟨inner, rfl⟩ | ⟨own, outer, inner, rfl⟩⟩ := entered_of_enter? entered
  · -- Only the predefined scope is open.
    have predefined : t.current = t.predefined := by rw [current, inner]; rfl
    rw [predefined] at new
    cases k with
    | zero =>
      cases here
      exact ⟨_, rfl, lookup_cons_of_new new found⟩
    | succ k => exact ⟨scope, here, found⟩
  · have innermost : t.current = own := by rw [current, inner]; rfl
    rw [innermost] at new
    simp only [scopes, inner, List.reverse_cons, ← List.cons_append] at here ⊢
    by_cases around : k < (t.predefined :: outer.reverse).length
    · rw [List.getElem?_append_left around] at here ⊢
      exact ⟨scope, here, found⟩
    · rw [List.getElem?_append_right (Nat.le_of_not_lt around)] at here ⊢
      obtain ⟨zero, rfl⟩ : k - (t.predefined :: outer.reverse).length = 0 ∧ own = scope := by
        simpa [List.getElem?_singleton] using here
      rw [zero]
      exact ⟨_, rfl, lookup_cons_of_new new found⟩

theorem retrieve?_eq_scopes (t : ScopeTable) (name : String) :
    t.retrieve? name = t.scopes.reverse.findSome? (·.lookup name) := by
  rw [retrieve?, scopes, List.reverse_cons, List.reverse_reverse]

theorem retrieve?_eq_some_iff {name : String} : t.retrieve? name = some d ↔
    ∃ around scope within, t.scopes = around ++ scope :: within ∧ scope.lookup name = some d ∧
      ∀ other ∈ within, other.lookup name = none := by
  rw [retrieve?_eq_scopes, List.findSome?_eq_some_iff]
  constructor
  · rintro ⟨within, scope, around, split, found, absent⟩
    refine ⟨around.reverse, scope, within.reverse, ?_, found, ?_⟩
    · rw [← List.reverse_reverse t.scopes, split]
      simp
    · intro other mem
      exact absent other (List.mem_reverse.mp mem)
  · rintro ⟨around, scope, within, split, found, absent⟩
    refine ⟨within.reverse, scope, around.reverse, by simp [split], found, ?_⟩
    intro other mem
    exact absent other (List.mem_reverse.mp mem)

theorem retrieve?_eq_none_iff {name : String} :
    t.retrieve? name = none ↔ ∀ scope ∈ t.scopes, scope.lookup name = none := by
  rw [retrieve?_eq_scopes, List.findSome?_eq_none_iff]
  simp only [List.mem_reverse]

end ScopeTable

namespace TableStep

variable {t u : ScopeTable} {step : TableStep} {w : Work Naming}
  {steps more segment : List TableStep}

/-- What comes of an attempt to change the table: it has the table given, or it is refused with one
error and leaves everything but the log as it was. -/
def Attempts (x : Resolving Bool) (w : Work Naming) : Option ScopeTable → Prop
  | some t => EStateM.run x w = .ok true { w with own := { w.own with table := t } }
  | none => ∃ log d, log.errors = w.log.errors ++ [d] ∧
    (EStateM.run x w = .ok false ⟨log, w.own⟩ ∨ EStateM.run x w = .error (.aborted d) ⟨log, w.own⟩)

theorem attempts_report (fault : NameFault) (pos : Nat) (w : Work Naming) :
    Attempts (do Resolving.reportName fault pos; return false) w none := by
  refine ⟨w.log.addError (.naming fault) pos, ⟨.error, .naming fault, pos⟩, rfl, ?_⟩
  rw [EStateM.run_bind, Resolving.reportName, Pass.run_report]
  by_cases mode : w.log.failFast
  · rw [if_pos mode]
    exact .inr rfl
  · rw [if_neg mode]
    exact .inl rfl

theorem attempts_enter (d : Decl) (pos : Nat) (w : Work Naming) :
    Attempts (Resolving.enter d pos) w (w.own.table.enter? d).toOption := by
  unfold Resolving.enter Attempts
  simp only [EStateM.run_bind, Resolving.run_table]
  cases w.own.table.enter? d with
  | ok t => rfl
  | error fault => exact attempts_report fault pos w

theorem attempts_registerClass (c : ClassRef) (w : Work Naming) :
    Attempts (Resolving.registerClass c) w (w.own.table.registerClass? c).toOption := by
  unfold Resolving.registerClass Attempts
  simp only [EStateM.run_bind, Resolving.run_table]
  cases w.own.table.registerClass? c with
  | ok t => rfl
  | error fault => exact attempts_report fault c.pos w

theorem attempts_registerMember (c : ClassRef) (d : Decl) (w : Work Naming) :
    Attempts (Resolving.registerMember c d) w (w.own.table.registerMember? c d).toOption := by
  unfold Resolving.registerMember Attempts
  simp only [EStateM.run_bind, Resolving.run_table]
  cases w.own.table.registerMember? c d with
  | ok t => rfl
  | error previous =>
    exact attempts_report (.duplicateMember d.name c.name) d.pos
      { w with log := w.log.addNote (.naming (.previousMember d.name)) previous.pos }

/-- An attempt that comes to its end answers whether it has changed the table. -/
theorem ends_of_attempts {x : Resolving Bool} {n : Naming} (change : Option ScopeTable)
    (h : ∀ log, Attempts x ⟨log, n⟩ change) :
    Pass.Ends x n fun done n' => done = change.isSome ∧
      n' = { n with table := change.getD n.table } := by
  refine ⟨fun {log a w} run => ?_⟩
  have attempted := h log
  cases change with
  | some t =>
    rw [show EStateM.run x ⟨log, n⟩ = _ from attempted] at run
    cases run
    exact ⟨rfl, rfl⟩
  | none =>
    obtain ⟨log', d, -, refused | stopped⟩ := attempted
    · rw [refused] at run
      cases run
      exact ⟨rfl, rfl⟩
    · rw [stopped] at run
      cases run

/-- That a step has its effect on the table and reports nothing, or is refused with one error and
leaves everything but the log as it was. -/
def Takes (answer : Work Naming × Except Stop Answer) (w : Work Naming) : Option ScopeTable → Prop
  | some t => ∃ a, ¬ Refused (.ok a) ∧ answer = ({ w with own := { w.own with table := t } }, .ok a)
  | none => ∃ log d a, Refused a ∧ log.errors = w.log.errors ++ [d] ∧ answer = (⟨log, w.own⟩, a)

theorem Attempts.takes {x : Resolving Bool} {o : Option ScopeTable} (h : Attempts x w o) :
    Takes ((do return .accepted (← x) : Resolving Answer).run w.log w.own) w o := by
  rw [Pass.run, EStateM.run_bind]
  cases o with
  | some t =>
    have run :
        EStateM.run x ⟨w.log, w.own⟩ = .ok true { w with own := { w.own with table := t } } := h
    rw [run]
    exact ⟨.accepted true, Bool.noConfusion, rfl⟩
  | none =>
    obtain ⟨log, d, errors, run | run⟩ := h
    · refine ⟨log, d, .ok (.accepted false), rfl, errors, ?_⟩
      rw [run]
      rfl
    · refine ⟨log, d, .error (.aborted d), trivial, errors, ?_⟩
      rw [run]

theorem run_takes (step : TableStep) (w : Work Naming) :
    Takes (step.run w) w (step.effect w.own.table) := by
  cases step with
  | openScope | retrieve | retrieveClass | retrieveMember => exact ⟨_, id, rfl⟩
  | closeScope =>
    unfold run work effect Resolving.closeScope
    simp only [Pass.run, EStateM.run_bind, Resolving.run_table]
    cases w.own.table.closeScope? with
    | ok t => exact ⟨.done, id, rfl⟩
    | error fault => exact ⟨_, _, .error (.aborted ⟨.error, .naming fault, 0⟩), trivial, rfl, rfl⟩
  | enter d pos => exact (attempts_enter d pos w).takes
  | registerClass c => exact (attempts_registerClass c w).takes
  | registerMember c d => exact (attempts_registerMember c d w).takes

theorem run_table (step : TableStep) (w : Work Naming) :
    (step.run w).1.own.table = (step.effect w.own.table).getD w.own.table := by
  have takes := run_takes step w
  cases effect : step.effect w.own.table with
  | some t =>
    rw [effect] at takes
    obtain ⟨a, -, run⟩ := takes
    rw [run]
    rfl
  | none =>
    rw [effect] at takes
    obtain ⟨log, d, a, -, -, run⟩ := takes
    rw [run]
    rfl

/-- What a step that takes effect keeps, every step keeps. -/
theorem table_run_induct {P : ScopeTable → Prop} (step : TableStep) (w : Work Naming)
    (h : P w.own.table) (taken : ∀ u, step.effect w.own.table = some u → P u) :
    P (step.run w).1.own.table := by
  rw [run_table]
  cases effect : step.effect w.own.table with
  | none => exact h
  | some u => exact taken u effect

theorem runAll_append (steps more : List TableStep) (w : Work Naming) :
    runAll (steps ++ more) w = runAll more (runAll steps w) := List.foldl_append

theorem ok_of_toOption {ε α : Type} {x : Except ε α} {a : α}
    (h : x.toOption = some a) : x = .ok a := by
  cases x with
  | ok b => exact congrArg Except.ok (Option.some.inj h)
  | error e => cases h

/-- What a step can do: it opens or closes a scope, enters a declaration in the innermost one, or
leaves all of them as they are. -/
theorem effect_cases (effect : step.effect t = some u) :
    (step = openScope ∧ u = t.openScope) ∨ (step = closeScope ∧ t.closeScope? = .ok u) ∨
    (∃ d pos, step = enter d pos ∧ t.enter? d = .ok u) ∨
    (step ≠ openScope ∧ step ≠ closeScope ∧ u.predefined = t.predefined ∧ u.inner = t.inner) := by
  cases step with
  | openScope =>
    cases effect
    exact .inl ⟨rfl, rfl⟩
  | closeScope => exact .inr (.inl ⟨rfl, ok_of_toOption effect⟩)
  | enter d pos => exact .inr (.inr (.inl ⟨d, pos, rfl, ok_of_toOption effect⟩))
  | registerClass c =>
    exact .inr (.inr (.inr
      ⟨nofun, nofun, ScopeTable.scopes_of_registerClass? (ok_of_toOption effect)⟩))
  | registerMember c d =>
    exact .inr (.inr (.inr
      ⟨nofun, nofun, ScopeTable.scopes_of_registerMember? (ok_of_toOption effect)⟩))
  | retrieve | retrieveClass | retrieveMember =>
    cases effect
    exact .inr (.inr (.inr ⟨nofun, nofun, rfl, rfl⟩))

theorem distinct_of_effect (h : t.Distinct) (effect : step.effect t = some u) : u.Distinct := by
  obtain ⟨rfl, rfl⟩ | ⟨rfl, closed⟩ | ⟨d, pos, rfl, entered⟩ | ⟨-, -, -, inner⟩ :=
    effect_cases effect
  · exact h.openScope
  · exact h.sublist ((ScopeTable.locals_of_closeScope? closed).sublist.map Prod.fst)
  · exact h.enter? entered
  · exact h.of_inner inner

theorem distinct_runAll (h : w.own.table.Distinct) : (runAll steps w).own.table.Distinct := by
  induction steps generalizing w with
  | nil => exact h
  | cons step rest ih =>
    exact ih (table_run_induct step w h fun u effect => distinct_of_effect h effect)

/-- The predefined scope may gain names while it is the innermost one. -/
theorem predefined_of_effect (effect : step.effect t = some u) : t.predefined <:+ u.predefined := by
  obtain ⟨rfl, rfl⟩ | ⟨rfl, closed⟩ | ⟨d, pos, rfl, entered⟩ | ⟨-, -, predefined, -⟩ :=
    effect_cases effect
  · exact List.suffix_refl _
  · unfold ScopeTable.closeScope? at closed
    split at closed <;> cases closed
    exact List.suffix_refl _
  · obtain ⟨-, ⟨-, rfl⟩ | ⟨scope, outer, -, rfl⟩⟩ := ScopeTable.entered_of_enter? entered
    · exact List.suffix_cons _ _
    · exact List.suffix_refl _
  · rw [predefined]

theorem predefined_runAll (steps : List TableStep) (w : Work Naming) :
    w.own.table.predefined <:+ (runAll steps w).own.table.predefined := by
  induction steps generalizing w with
  | nil => exact List.suffix_refl _
  | cons step rest ih =>
    have first : w.own.table.predefined <:+ (step.run w).1.own.table.predefined :=
      table_run_induct (P := fun u => w.own.table.predefined <:+ u.predefined) step w
        (List.suffix_refl _) fun u => predefined_of_effect
    exact first.trans (ih _)

/-- Two tables whose scopes differ in the innermost one at most, which is not the predefined one. -/
structure Around (t u : ScopeTable) : Prop where
  inside : u.inner ≠ []
  tail : u.inner.tail = t.inner.tail
  predefined : u.predefined = t.predefined

theorem Around.trans {v : ScopeTable} (h : Around t u) (h' : Around u v) : Around t v :=
  ⟨h'.inside, h'.tail.trans h.tail, h'.predefined.trans h.predefined⟩

theorem around_of_effect (inside : t.inner ≠ []) (notOpen : step ≠ openScope)
    (notClose : step ≠ closeScope) (effect : step.effect t = some u) : Around t u := by
  obtain ⟨same, -⟩ | ⟨same, -⟩ | ⟨d, pos, -, entered⟩ | ⟨-, -, predefined, inner⟩ :=
    effect_cases effect
  · exact absurd same notOpen
  · exact absurd same notClose
  · obtain ⟨-, ⟨inner, -⟩ | ⟨scope, outer, inner, rfl⟩⟩ := ScopeTable.entered_of_enter? entered
    · exact absurd inner inside
    · exact ⟨List.cons_ne_nil _ _, by rw [inner]; rfl, rfl⟩
  · exact ⟨inner ▸ inside, congrArg List.tail inner, predefined⟩

/-- To open a scope, to stay within it and to close it leaves the scopes as they were. -/
theorem scopes_nested {inside : List TableStep} (w : Work Naming)
    (within : Around w.own.table.openScope (runAll inside (openScope.run w).1).own.table) :
    (runAll (openScope :: inside ++ [closeScope]) w).own.table.predefined = w.own.table.predefined ∧
      (runAll (openScope :: inside ++ [closeScope]) w).own.table.inner = w.own.table.inner := by
  rw [runAll_append]
  change (closeScope.run (runAll inside (openScope.run w).1)).1.own.table.predefined = _ ∧
    (closeScope.run (runAll inside (openScope.run w).1)).1.own.table.inner = _
  rw [run_table]
  obtain ⟨ne, tail, predefined⟩ := within
  cases inner : (runAll inside (openScope.run w).1).own.table.inner with
  | nil => exact absurd inner ne
  | cons scope outer =>
    rw [inner] at tail
    have closed : effect closeScope (runAll inside (openScope.run w).1).own.table =
        some { (runAll inside (openScope.run w).1).own.table with inner := outer } := by
      simp only [effect, ScopeTable.closeScope?, inner, Except.toOption]
    rw [closed]
    exact ⟨predefined, tail⟩

theorem Balanced.around (h : Balanced segment) (w : Work Naming) (inside : w.own.table.inner ≠ []) :
    Around w.own.table (runAll segment w).own.table := by
  induction h generalizing w with
  | nil => exact ⟨inside, rfl, rfl⟩
  | @step step rest notOpen notClose _ ih =>
    have first : Around w.own.table (step.run w).1.own.table :=
      table_run_induct step w ⟨inside, rfl, rfl⟩ fun u => around_of_effect inside notOpen notClose
    exact first.trans (ih _ first.inside)
  | @nested within rest _ _ ihWithin ihRest =>
    have opened : (openScope.run w).1.own.table = w.own.table.openScope := run_table openScope w
    have stays := ihWithin (openScope.run w).1 (by rw [opened]; exact List.cons_ne_nil _ _)
    obtain ⟨predefined, inner⟩ := scopes_nested w (opened ▸ stays)
    have regroup : openScope :: within ++ closeScope :: rest =
        (openScope :: within ++ [closeScope]) ++ rest := by
      rw [List.append_assoc]
      rfl
    rw [regroup, runAll_append]
    have first : Around w.own.table (runAll (openScope :: within ++ [closeScope]) w).own.table :=
      ⟨inner ▸ inside, congrArg List.tail inner, predefined⟩
    exact first.trans (ihRest _ first.inside)

theorem scopes_balanced (h : Balanced segment) (w : Work Naming) :
    (runAll (openScope :: segment ++ [closeScope]) w).own.table.scopes = w.own.table.scopes := by
  have opened : (openScope.run w).1.own.table = w.own.table.openScope := run_table openScope w
  have stays := h.around (openScope.run w).1 (by rw [opened]; exact List.cons_ne_nil _ _)
  obtain ⟨predefined, inner⟩ := scopes_nested w (opened ▸ stays)
  rw [ScopeTable.scopes, predefined, inner]
  rfl

/-- What holds of a scope table, the log and the operations still to come. -/
structure Lawful (w : Work Naming) : Prop where
  /-- The predefined scope is never removed, and loses no name. -/
  predefined : ∀ more, w.own.table.predefined <:+ (runAll more w).own.table.predefined
  outermost : w.own.table.level = 0 →
    (closeScope.run w).2 = .error (.aborted ⟨.error, .naming .closedOutermost, 0⟩)
  /-- No scope of parameters or local variables has a name in common with another. -/
  disjoint : ((w.own.table.scopes.drop ScopeTable.paramLevel).map fun scope =>
    scope.map Prod.fst).Pairwise List.Disjoint
  /-- A step is refused if it reports an error, and only then; it changes nothing else. -/
  refused : ∀ step : TableStep,
    (¬ Refused (step.run w).2 ∧ (step.run w).1.log.errors = w.log.errors) ∨
    (Refused (step.run w).2 ∧ (step.run w).1.own = w.own ∧
      ∃ d, (step.run w).1.log.errors = w.log.errors ++ [d])
  balanced : ∀ segment, Balanced segment →
    (runAll (openScope :: segment ++ [closeScope]) w).own.table.scopes = w.own.table.scopes
  /-- A name means its declaration in the innermost scope that holds it. -/
  innermost : ∀ name d, ((retrieve name).run w).2 = .ok (.decl (some d)) ↔
    ∃ around scope within, w.own.table.scopes = around ++ scope :: within ∧
      scope.lookup name = some d ∧ ∀ other ∈ within, other.lookup name = none
  absent : ∀ name, ((retrieve name).run w).2 = .ok (.decl none) ↔
    ∀ scope ∈ w.own.table.scopes, scope.lookup name = none
  entered : ∀ d pos, ((enter d pos).run w).2 = .ok (.accepted true) →
    ((retrieve d.name).run ((enter d pos).run w).1).2 = .ok (.decl (some d))
  kept : ∀ d pos, w.own.table.Keeps ((enter d pos).run w).1.own.table

theorem refused_or_taken (step : TableStep) (w : Work Naming) :
    (¬ Refused (step.run w).2 ∧ (step.run w).1.log.errors = w.log.errors) ∨
    (Refused (step.run w).2 ∧ (step.run w).1.own = w.own ∧
      ∃ d, (step.run w).1.log.errors = w.log.errors ++ [d]) := by
  have takes := run_takes step w
  cases effect : step.effect w.own.table with
  | some t =>
    rw [effect] at takes
    obtain ⟨a, accepted, run⟩ := takes
    rw [run]
    exact .inl ⟨accepted, rfl⟩
  | none =>
    rw [effect] at takes
    obtain ⟨log, d, a, refused, errors, run⟩ := takes
    rw [run]
    exact .inr ⟨refused, rfl, d, errors⟩

theorem retrieve_iff {name : String} {found : Option Decl} :
    ((retrieve name).run w).2 = .ok (.decl found) ↔ w.own.table.retrieve? name = found := by
  change (Except.ok (Answer.decl (w.own.table.retrieve? name)) : Except Stop Answer) = _ ↔ _
  rw [Except.ok.injEq, Answer.decl.injEq]

theorem enter?_of_accepted {d : Decl} {pos : Nat}
    (accepted : ((enter d pos).run w).2 = .ok (.accepted true)) :
    w.own.table.enter? d = .ok ((enter d pos).run w).1.own.table := by
  have takes := run_takes (enter d pos) w
  cases effect : (enter d pos).effect w.own.table with
  | some t =>
    rw [run_table, effect]
    exact ok_of_toOption effect
  | none =>
    rw [effect] at takes
    obtain ⟨log, fault, a, refused, -, run⟩ := takes
    rw [run] at accepted
    cases accepted
    cases refused

/-- Whatever was done with the fresh table, in either mode. -/
theorem lawful_reached (failFast : Bool) (steps : List TableStep) :
    Lawful (reached failFast steps) where
  predefined more := predefined_runAll more _
  outermost level := by
    have closed := ScopeTable.closeScope?_eq_error_iff.mpr ⟨level, rfl⟩
    unfold run work Resolving.closeScope
    simp only [Pass.run, EStateM.run_bind, Resolving.run_table, closed]
    rfl
  disjoint := (distinct_runAll (w := ⟨{ failFast := failFast }, {}⟩) List.nodup_nil).pairwise
  refused step := refused_or_taken step _
  balanced _ h := scopes_balanced h _
  innermost _ _ := retrieve_iff.trans ScopeTable.retrieve?_eq_some_iff
  absent _ := retrieve_iff.trans ScopeTable.retrieve?_eq_none_iff
  entered _ _ accepted :=
    retrieve_iff.mpr (ScopeTable.retrieve?_enter?_self (enter?_of_accepted accepted))
  kept d pos := table_run_induct (P := fun u => ScopeTable.Keeps _ u) (enter d pos) _
    (fun _ scope _ _ here found => ⟨scope, here, found⟩)
    fun _ effect => ScopeTable.keeps_of_enter? (ok_of_toOption effect)

/-- A block of a method cannot declare the name of a parameter anew. -/
example : let x : Decl := .param [] ⟨"x", .base .int 0, 0⟩
    let w := reached false [openScope, openScope, openScope, enter x 0, openScope, enter x 7]
    w.log.errors = [⟨.error, .naming (.hidesLocal "x"), 7⟩] ∧ w.own.table.scopes.length = 5 := by
  exact ⟨rfl, rfl⟩

end TableStep

end JamCompiler

import JamCompiler.Proofs.Naming.SecondLook
import JamCompiler.Proofs.Positions.Resolution

/-!
# Balanced scopes

Resolution opens and closes scopes all over its recursion, and it goes on after most errors.
Whatever is wrong in a tree, a step that comes to its end has closed the scopes that it opened and
has left those around as they were; only a statement may have declared something in the innermost
scope. So a whole run leaves the predefined scope and that of the classes, with the classes that are
registered.
-/

namespace JamCompiler

open Pass

/-- The scope in which some classes are declared one after the other. -/
def classScope (cs : List ClassRef) : Scope := (cs.map fun c => (c.name, .cls c)).reverse

/-- The classes among some of a program that are the first of their names. -/
def firstClasses (cs : List (Site × ClassDecl)) : List (Site × ClassDecl) :=
  cs.filter fun c => firstClass? cs c.2.name = some (c.2.ref c.1)

section FirstClasses

variable {cs : List (Site × ClassDecl)} {c : Site × ClassDecl} {name : String}

/-- A further class does not change which of the others are the first of their names. -/
theorem firstClasses_append (new : ∀ b ∈ enrolled cs, b.1 ≠ c.2.ref c.1) :
    firstClasses (cs ++ [c]) =
      firstClasses cs ++ if firstClass? cs c.2.name = none then [c] else [] := by
  rw [firstClasses, List.filter_append]
  congr 1
  · refine List.filter_congr fun b hb => ?_
    have there : (b.2.ref b.1, b.2.members b.1) ∈ enrolled cs :=
      List.mem_append_right _ (List.mem_map_of_mem hb)
    have known : firstClass? cs b.2.name ≠ none := by
      rw [firstClass?, Ne, Option.map_eq_none_iff, List.find?_eq_none]
      exact fun none => none _ there (beq_self_eq_true _)
    obtain ⟨first, found⟩ := Option.ne_none_iff_exists'.mp known
    rw [firstClass?_append, found]
    rfl
  · rw [List.filter_singleton, firstClass?_append, if_pos rfl]
    cases found : firstClass? cs c.2.name with
    | none => simp
    | some r =>
      obtain ⟨b, first, rfl⟩ := Option.map_eq_some_iff.mp found
      simp [new b (List.mem_of_find?_eq_some first)]

theorem lookup_classScope_of_new (new : firstClass? cs name = none) :
    (classScope ((firstClasses cs).map fun c => c.2.ref c.1)).lookup name = none := by
  rw [lookup_eq_none_iff_not_mem]
  simp only [classScope, List.map_reverse, List.map_map, List.mem_reverse, List.mem_map]
  rintro ⟨b, first, rfl⟩
  have found := of_decide_eq_true (List.mem_filter.mp first).2
  cases new.symm.trans found

end FirstClasses

namespace ScopeTable

variable {t : ScopeTable} {cs : List (Site × ClassDecl)} {c : Site × ClassDecl}

/-- The level of the scope of the classes. -/
def classLevel : Nat := 1

/-- The same scopes in two tables, but for declarations in the innermost scope of the second before
those of the first. -/
structure SameBelowTop (t u : ScopeTable) : Prop where
  level : u.level = t.level
  below : u.scopes.dropLast = t.scopes.dropLast
  top : t.current <:+ u.current
  classes : u.classes = t.classes
  members : u.members = t.members

theorem SameBelowTop.refl (t : ScopeTable) : t.SameBelowTop t :=
  ⟨rfl, rfl, List.suffix_rfl, rfl, rfl⟩

theorem KeptByEnter.sameBelowTop (t : ScopeTable) : KeptByEnter t.SameBelowTop := by
  intro d u v same entered
  obtain ⟨-, ⟨inner, rfl⟩ | ⟨scope, outer, inner, rfl⟩⟩ := entered_of_enter? entered
  · refine ⟨same.level, ?_, same.top.trans ?_, same.classes, same.members⟩
    · simpa [scopes, inner] using same.below
    · simp [current, inner]
  · refine ⟨(level_of_enter? entered).trans same.level, ?_, same.top.trans ?_,
      same.classes, same.members⟩
    · simpa [scopes, inner, List.dropLast_cons_of_ne_nil] using same.below
    · simp [current, inner]

/-- A table in whose scopes just those of the classes collected so far are declared that are
registered. -/
structure Declares (cs : List (Site × ClassDecl)) (t : ScopeTable) : Prop where
  classes : ∀ name, t.retrieveClass? name = firstClass? cs name
  predefined : t.predefined = classScope Predefined.classes
  inner : t.inner = [classScope ((firstClasses cs).map fun c => c.2.ref c.1)]

namespace Declares

theorem predefinedTable : (predefinedTable Predefined.classes).openScope.Declares [] :=
  ⟨collected_predefined.classes, rfl, rfl⟩

/-- A class whose name is taken is not declared. -/
theorem pass (h : t.Declares cs) (new : ∀ b ∈ enrolled cs, b.1 ≠ c.2.ref c.1)
    (taken : firstClass? cs c.2.name ≠ none) : t.Declares (cs ++ [c]) where
  classes name := (h.classes name).trans (firstClass?_append_taken taken name).symm
  predefined := h.predefined
  inner := by rw [firstClasses_append new, if_neg taken, List.append_nil, h.inner]

/-- A class with a new name can be declared once it is registered. -/
theorem add (h : t.Declares cs) (new : ∀ b ∈ enrolled cs, b.1 ≠ c.2.ref c.1)
    (free : firstClass? cs c.2.name = none) :
    ∃ u, { t with classes := (c.2.name, c.2.ref c.1) :: t.classes }.enter? (.cls (c.2.ref c.1)) =
      .ok u ∧
      u.Declares (cs ++ [c]) := by
  have absent := lookup_classScope_of_new free
  refine ⟨{ t with
    classes := (c.2.name, c.2.ref c.1) :: t.classes
    inner := [classScope ((firstClasses (cs ++ [c])).map fun c => c.2.ref c.1)] }, ?_, ?_⟩
  · have scope : classScope ((firstClasses (cs ++ [c])).map fun c => c.2.ref c.1) =
        (c.2.name, .cls (c.2.ref c.1)) ::
        classScope ((firstClasses cs).map fun c => c.2.ref c.1) := by
      rw [firstClasses_append new, if_pos free]
      simp [classScope, ClassDecl.ref]
    have name : (Decl.cls (c.2.ref c.1)).name = c.2.name := rfl
    simp [enter?, holds, current, enclosingLocals, h.inner, scope, absent, name]
  · exact ⟨lookup_firstClass? h.classes free, h.predefined, rfl⟩

theorem registerMember? (h : t.Declares cs) (c : ClassRef) (d : Decl) :
    ((t.registerMember? c d).toOption.getD t).Declares cs := by
  unfold ScopeTable.registerMember?
  split
  · exact h
  · exact ⟨h.classes, h.predefined, h.inner⟩

theorem scopes_eq {p : Program} (h : t.Declares p.sitedClasses) : t.scopes =
    [classScope Predefined.classes, classScope ((p.registered t).map fun c => c.2.ref c.1)] := by
  have registered : p.registered t = firstClasses p.sitedClasses :=
    List.filter_congr fun c _ => by rw [← h.classes]
  rw [scopes, h.predefined, h.inner, registered]
  rfl

end Declares

end ScopeTable

namespace Resolving

open TableStep

variable {cs : List (Site × ClassDecl)} {c : Site × ClassDecl} {n : Naming}

theorem ends_registerMembers_declares (ref : ClassRef) (members : List Decl)
    (h : n.table.Declares cs) :
    Ends (registerMembers ref members) n fun _ n' => n'.table.Declares cs := by
  unfold registerMembers
  induction members generalizing n with
  | nil => exact .pure h
  | cons d rest ih =>
    have first : Ends (do let _ ← registerMember ref d) n fun _ n' => n'.table.Declares cs := by
      refine (ends_of_attempts (n.table.registerMember? ref d).toOption fun log =>
        attempts_registerMember ref d ⟨log, n⟩).bind ?_
      rintro _ _ ⟨-, rfl⟩
      exact .pure (h.registerMember? ref d)
    exact first.bind fun _ _ declares => ih declares

/-- A class is declared when it is registered, and only then. -/
theorem ends_collectClass_declares (h : n.table.Declares cs)
    (new : ∀ b ∈ enrolled cs, b.1 ≠ c.2.ref c.1) :
    Ends (collectClass c.1 c.2) n fun _ n' => n'.table.Declares (cs ++ [c]) := by
  refine (ends_of_attempts (n.table.registerClass? (c.2.ref c.1)).toOption fun log =>
    attempts_registerClass _ ⟨log, n⟩).bind ?_
  rintro _ _ ⟨rfl, rfl⟩
  have found : n.table.retrieveClass? (c.2.ref c.1).name = firstClass? cs c.2.name :=
    h.classes c.2.name
  cases registered : firstClass? cs c.2.name with
  | some b =>
    simp only [ScopeTable.registerClass?, found, registered]
    exact .pure (h.pass new (by rw [registered]; exact Option.some_ne_none _))
  | none =>
    obtain ⟨u, entered, declares⟩ := h.add new registered
    simp only [ScopeTable.registerClass?, found, registered]
    refine (ends_of_attempts (some u) fun log => ?_).bind ?_
    · have attempted := attempts_enter (.cls (c.2.ref c.1)) c.2.pos ⟨log, n.withClass (c.2.ref c.1)⟩
      rw [show (n.withClass (c.2.ref c.1)).table.enter? _ = _ from entered] at attempted
      exact attempted
    · rintro _ _ ⟨-, rfl⟩
      exact ends_registerMembers_declares _ _ declares

/-- The classes of a program, of which some are collected already. -/
theorem ends_collectClasses_declares (cs rest : List (Site × ClassDecl)) (h : n.table.Declares cs)
    (sites : ((cs ++ rest).map Prod.fst).Nodup) :
    Ends (rest.forM fun c => collectClass c.1 c.2) n fun _ n' =>
      n'.table.Declares (cs ++ rest) := by
  induction rest generalizing n cs with
  | nil => exact .pure ((List.append_nil cs).symm ▸ h)
  | cons c rest ih =>
    have whole : cs ++ [c] ++ rest = cs ++ c :: rest := (List.append_cons ..).symm
    refine (ends_collectClass_declares h (ref_not_enrolled sites)).bind fun _ _ declares => ?_
    exact whole ▸ ih (cs ++ [c]) declares (whole ▸ sites)

theorem ends_collect_declares (p : Program) (bindings : SiteMap Decl) :
    Ends (collect p) { bindings := bindings } fun _ n => n.table.Declares p.sitedClasses := by
  rw [collect_eq_then]
  have predefined :
      Ends collectPredefineds { bindings := bindings } fun _ n => n.table.Declares [] := by
    refine ⟨fun run => ?_⟩
    rw [run_collectPredefineds] at run
    cases run
    exact .predefinedTable
  exact predefined.bind fun _ _ declares => ends_collectClasses_declares [] _ declares p.nodup_sites

/-- The classes that are registered leave the table as collecting has left it. -/
theorem ends_resolve_declares (p : Program) (bindings : SiteMap Decl) :
    Ends (resolve p) { bindings := bindings } fun _ n => n.table.Declares p.sitedClasses := by
  refine (ends_collect_declares p bindings).bind fun _ n declares => (ends_table n).bind ?_
  rintro _ n ⟨rfl, rfl⟩
  have kept : Ends ((p.registered n.table).forM fun c => resolveClass c.1 c.2) n fun _ n' =>
      n'.table = n.table :=
    (Logs.forM fun c _ =>
      points_resolveClass (P := fun _ => True) c.1 n.table fun _ _ => trivial).ends
        (.forM fun c _ => names_resolveClass c.1 c.2) rfl
  exact kept.imp fun _ n' same => same ▸ declares

end Resolving

open Resolving in
/-- Scopes are balanced. In whatever state, an expression or a method that is resolved leaves the
table as it was, and a statement leaves it so below the innermost scope, with what this one had; and
a run of resolution that is not stopped leaves two scopes, in which the predefined classes are
declared and those that are registered, in their order. -/
theorem resolution_balances_scopes :
    (∀ ctx site e n, Ends (resolveExpr ctx site e) n fun _ n' => n'.table = n.table) ∧
    (∀ ctx site s n, Ends (resolveStmt ctx site s) n fun _ n' => n.table.SameBelowTop n'.table) ∧
    (∀ cls site m n, Ends (resolveMethodDecl cls site m) n fun _ n' => n'.table = n.table) ∧
    ∀ (c c' : Compilation) (t : ScopeTable), c.resolve = (c', t, .ok ()) →
      t.level = ScopeTable.classLevel ∧ t.scopes =
        [classScope Predefined.classes,
          classScope ((c.program.registered t).map fun c => c.2.ref c.1)] := by
  refine ⟨fun ctx site e n => ?_, fun ctx site s n => ?_, fun cls site m n => ?_,
    fun c c' t resolved => ?_⟩
  · have points : Points (fun _ => True) (· = n.table) (resolveExpr ctx site e) :=
      points_resolveExpr ctx site e fun _ _ => trivial
    exact points.ends (names_resolveExpr ctx site e) rfl
  · have points : Points (fun _ => True) n.table.SameBelowTop (resolveStmt ctx site s) :=
      points_resolveStmt (.sameBelowTop n.table) ctx site s fun _ _ => trivial
    exact points.ends (names_resolveStmt ctx site s) (.refl n.table)
  · have points : Points (fun _ => True) (· = n.table) (resolveMethodDecl cls site m) :=
      points_resolveMethodDecl cls site fun _ _ => trivial
    exact points.ends (names_resolveMethodDecl cls site m) rfl
  · obtain ⟨w, run, rfl, -⟩ := Compilation.run_of_resolve resolved
    have declares := (ends_resolve_declares c.program c.bindings).holds (run_eq_ok run)
    exact ⟨congrArg List.length declares.inner, declares.scopes_eq⟩

/-- A tree that nobody could have written. It declares parameters, variables and classes twice and a
variable as the whole of a branch, and a class that is passed over has a statement of no known
kind. -/
def strayProgram : Program where
  classes := [
    { name := "A"
      methods := [{
        head := {
          name := "m"
          result := .base .void 0
          params := [⟨"n", .base .int 0, 0⟩, ⟨"n", .base .int 0, 0⟩] }
        body := [
          .block [.declare ⟨"n", .base .int 0, 0⟩ (.int 1 0) 0] 0,
          .loop (.bool true 0)
            (.declare ⟨"k", .named ⟨"C", 0⟩ 0, 0⟩ (.ref (.ident ⟨"k", 0⟩ 0) 0) 0) 0] }] },
    { name := "String"
      methods := [{
        head := { name := "m", result := .base .void 0 }
        body := [.unknown "GotoStmt" 0] }] },
    { name := "A" },
    { name := "B" }]

theorem strayProgram_balanced :
    ∃ c t, Compilation.resolve { program := strayProgram } = (c, t, .ok ()) ∧
    c.log.errors.length = 7 ∧ (strayProgram.registered t).map (·.2.name) = ["A", "B"] ∧
    t.level = ScopeTable.classLevel ∧ t.scopes =
      [classScope Predefined.classes,
        classScope ((strayProgram.registered t).map fun c => c.2.ref c.1)] := by
  obtain ⟨⟨⟩, ended, known⟩ :=
    exists_ok_of_any (x := (Compilation.resolve { program := strayProgram }).2.2)
      (P := fun _ => (Compilation.resolve { program := strayProgram }).1.log.errors.length = 7 ∧
        (strayProgram.registered (Compilation.resolve { program := strayProgram }).2.1).map
          (·.2.name) = ["A", "B"])
      (by decide +kernel)
  have counted := of_decide_eq_true known
  cases resolved : Compilation.resolve { program := strayProgram } with
  | mk c rest =>
    obtain ⟨t, answer⟩ := rest
    rw [resolved] at ended counted
    subst ended
    obtain ⟨errors, names⟩ := counted
    exact ⟨c, t, rfl, errors, names, resolution_balances_scopes.2.2.2 _ _ _ resolved⟩

end JamCompiler

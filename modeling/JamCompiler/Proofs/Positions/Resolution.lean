import JamCompiler.Proofs.Naming.FirstDeclarations
import JamCompiler.Proofs.Positions.Landmarks
import JamCompiler.Proofs.Positions.Logs
import JamCompiler.Proofs.ScopeLaws

/-!
# Positions of what resolution reports

Whatever resolution reports stands at a landmark of the tree, also in a tree that nobody could have
written. Two places need more than a look at the step. To close the outermost scope would be
reported at no landmark; so it is shown that the scopes below the innermost one are left alone, and
each scope that is opened is the one that is closed. And the note on a second member stands at the
first one, which must not be predefined; so it is shown that no class of the program with a
predefined name comes to have members.
-/

namespace JamCompiler

open Pass
open Landmark (AllAt)

/-- Whether a condition on tables stays true when a declaration is entered. -/
def ScopeTable.KeptByEnter (T : ScopeTable → Prop) : Prop := ∀ d t u, T t → t.enter? d = .ok u → T u

/-- Tables that differ in their innermost scopes at most still do after a declaration in the
second. -/
theorem ScopeTable.KeptByEnter.sameAround (t : ScopeTable) : KeptByEnter t.SameAround := by
  intro d u v h entered
  obtain ⟨-, ⟨outside, -⟩ | ⟨scope, outer, inner, rfl⟩⟩ := entered_of_enter? entered
  · exact absurd outside h.inside
  · have tail := h.tail
    rw [inner] at tail
    exact ⟨tail, List.cons_ne_nil _ _, h.predefined, h.classes, h.members⟩

/-- What holds of the table while the classes of a program are collected: the predefined classes are
registered, and every member is one of theirs or stands at one of some positions. -/
structure ScopeTable.Collecting (P : Nat → Prop) (t : ScopeTable) : Prop where
  predefined : ∀ c ∈ Predefined.classes, t.retrieveClass? c.name ≠ none
  members : ∀ e ∈ t.members, (∃ c ∈ Predefined.classes, c.name = e.1.1) ∨ P e.2.pos

namespace Resolving

/-- All that a step writes stands at one of some positions, and a condition on the table stays
true. -/
abbrev Points {α : Type} (P : Nat → Prop) (T : ScopeTable → Prop) (x : Resolving α) : Prop :=
  Logs (Diagnostic.At P) (fun n => T n.table) x fun _ n => T n.table

section Steps

variable {P : Nat → Prop} {T : ScopeTable → Prop} {α β : Type}

theorem points_report {pos : Nat} (h : P pos) (fault : NameFault) :
    Points P T (reportName fault pos) :=
  .report ⟨pos, rfl, h⟩

theorem points_refuse {pos : Nat} (h : P pos) (fault : NameFault) (a : α) :
    Points P T (do reportName fault pos; return a) :=
  (points_report h fault).bind fun _ => .pure fun _ => id

theorem points_foreign {pos : Nat} (h : P pos) (sort : NodeSort) (kind : String) :
    Points P T (Pass.fatal (.naming (.foreign sort kind)) pos : Resolving α) :=
  .fatal ⟨pos, rfl, h⟩

/-- A step that looks at the table. -/
theorem logs_table {f : ScopeTable → Resolving β} {J : β → Naming → Prop}
    (h : ∀ t, T t → Logs (Diagnostic.At P) (fun n => n.table = t) (f t) J) :
    Logs (Diagnostic.At P) (fun n => T n.table) (table >>= f) J := by
  have look : Logs (Diagnostic.At P) (fun n => T n.table) table fun t n => n.table = t ∧ T t := by
    refine Logs.getOwn.bind fun n => .pure ?_
    rintro _ ⟨rfl, holds⟩
    exact ⟨rfl, holds⟩
  refine look.bind fun t => .fix ?_
  rintro n ⟨same, holds⟩
  exact (h t holds).imp (by rintro _ rfl; exact same) fun _ _ => id

theorem points_table {f : ScopeTable → Resolving β} (h : ∀ t, Points P T (f t)) :
    Points P T (table >>= f) :=
  logs_table fun t holds => (h t).imp (by rintro n rfl; exact holds) fun _ _ => id

theorem logs_setTable (t : ScopeTable) {I : Naming → Prop} :
    Logs (Diagnostic.At P) I (setTable t) fun _ n => n.table = t :=
  .modifyOwn fun _ _ => rfl

theorem points_bound : Points P T bound :=
  Logs.getOwn.bind fun n => .pure (by rintro _ ⟨rfl, holds⟩; exact holds)

theorem points_bind (site : Site) (d : Decl) : Points P T (bind site d) := by
  have filled :
      Points P T (Pass.modifyOwn fun n => { n with bindings := n.bindings.fill site d }) :=
    .modifyOwn fun _ holds => holds
  exact filled.bind fun _ => points_bound.bind fun _ => .pure fun _ => id

/-- After a scope is opened, the table is as before around it. -/
theorem logs_openScope {f : Unit → Resolving β} {J : β → Naming → Prop}
    (h : ∀ t, T t → Logs (Diagnostic.At P) (fun n => t.openScope.SameAround n.table) (f ()) J) :
    Logs (Diagnostic.At P) (fun n => T n.table) (openScope >>= f) J := by
  refine .fix fun n holds => ?_
  have opens : Logs (Diagnostic.At P) (n = ·) openScope fun _ n' =>
      n.table.openScope.SameAround n'.table := by
    refine (logs_table (T := (n.table = ·)) fun t same => ?_).imp (by rintro _ rfl; rfl)
      fun _ _ => id
    refine (logs_setTable _).imp (fun _ => id) ?_
    rintro _ n' opened
    rw [same, opened]
    exact ⟨rfl, List.cons_ne_nil _ _, rfl, rfl, rfl⟩
  exact opens.bind fun _ => h n.table holds

/-- A scope can be closed where the table is as before around it, and then it is the table as
before. -/
theorem logs_closeScope (t : ScopeTable) :
    Logs (Diagnostic.At P) (fun n => t.openScope.SameAround n.table) closeScope
      fun _ n => n.table = t := by
  refine logs_table fun u around => ?_
  rw [ScopeTable.closeScope?_of_sameAround around]
  exact logs_setTable t

theorem points_enter {d : Decl} {pos : Nat} (h : P pos) (kept : ScopeTable.KeptByEnter T) :
    Points P T (enter d pos) := by
  refine logs_table fun t holds => ?_
  cases entered : t.enter? d with
  | ok u =>
    refine (logs_setTable u).bind fun _ => .pure ?_
    rintro n rfl
    exact kept d t _ holds entered
  | error fault =>
    refine (points_refuse (T := (· = t)) h fault false).imp (fun _ => id) ?_
    rintro _ n rfl
    exact holds

end Steps

section References

variable {P : Nat → Prop} {T : ScopeTable → Prop} (ctx : Context)

theorem points_resolveType (site : Site) (type : TypeExpr) (h : AllAt P type.landmarks) :
    Points P T (resolveType site type) := by
  induction type generalizing site with
  | base b pos => exact .pure fun _ => id
  | array element pos ih => exact ih _ h.tail
  | unknown kind pos => exact points_foreign (h _ List.mem_cons_self) _ _
  | named name pos =>
    refine points_bound.bind fun known => ?_
    split
    · exact .pure fun _ => id
    · refine points_table fun t => ?_
      split
      · exact (points_bind _ _).bind fun _ => .pure fun _ => id
      · exact points_report (h _ List.mem_cons_self) _

theorem points_resolveName (site : Site) {name : Identifier} (h : P name.pos) :
    Points P T (resolveName ctx site name) := by
  refine points_table fun t => ?_
  split
  · exact points_refuse h _ _
  · split
    · exact points_refuse h _ _
    · split
      · split <;> exact points_refuse h _ _
      · exact (points_bind _ _).bind fun _ => .pure fun _ => id

theorem points_memberOf (c : ClassRef) {name : Identifier} (h : P name.pos) :
    Points P T (memberOf ctx c name) := by
  refine points_table fun t => ?_
  split
  · exact points_refuse h _ _
  · split
    · exact points_refuse h _ _
    · exact .pure fun _ => id

theorem points_memberOfClass (c : ClassRef) {name : Identifier} (h : P name.pos) :
    Points P T (memberOfClass ctx c name) := by
  refine (points_memberOf ctx c h).bind fun found => ?_
  cases found with
  | none => exact .pure fun _ => id
  | some d =>
    dsimp only
    split
    · exact .pure fun _ => id
    · exact points_refuse h _ _

theorem points_memberOfValue (owner : Decl) {pos : Nat} {name : Identifier} (here : P pos)
    (h : P name.pos) : Points P T (memberOfValue ctx owner pos name) := by
  refine points_bound.bind fun known => ?_
  dsimp only
  split
  · split
    · exact .pure fun _ => id
    · exact points_refuse h _ _
  · exact points_memberOf ctx _ h
  · exact .pure fun _ => id
  · exact points_refuse here _ _

theorem points_memberAfter {qualifier : Reference} (base : Decl) {name : Identifier}
    (here : P qualifier.pos) (h : P name.pos) :
    Points P T (memberAfter ctx qualifier base name) := by
  unfold memberAfter
  split
  · exact points_refuse here _ _
  · exact points_memberOf ctx _ h
  · exact points_memberOfClass ctx _ h
  · exact points_memberOfValue ctx _ here h

theorem points_resolveRef (site : Site) (r : Reference) (h : AllAt P r.landmarks) :
    Points P T (resolveRef ctx site r) := by
  induction r generalizing site with
  | this pos =>
    unfold resolveRef
    split
    · exact points_refuse (h _ List.mem_cons_self) _ _
    · exact (points_bind _ _).bind fun _ => .pure fun _ => id
  | ident name pos =>
    have here : P name.pos := h (.name name) (List.mem_cons_of_mem _ List.mem_cons_self)
    refine (points_resolveName ctx _ here).bind fun found => ?_
    cases found with
    | none => exact .pure fun _ => id
    | some d => exact (points_bind _ _).bind fun _ => .pure fun _ => id
  | qualified qualifier name pos ih =>
    obtain ⟨here, inside⟩ := List.forall_mem_cons.mp h.tail
    refine (ih _ inside).bind fun found => ?_
    cases found with
    | none => exact .pure fun _ => id
    | some base =>
      refine (points_memberAfter ctx base (inside _ qualifier.mem_landmarks) here).bind
        fun found => ?_
      cases found with
      | none => exact .pure fun _ => id
      | some member =>
        exact (points_bind _ _).bind fun _ => (points_bind _ _).bind fun _ => .pure fun _ => id
  | unknown kind pos => exact points_foreign (h _ List.mem_cons_self) _ _

theorem points_resolveMethod (site : Site) (r : Reference) (h : AllAt P r.landmarks) :
    Points P T (resolveMethod ctx site r) := by
  refine (points_resolveRef ctx site r h).bind fun found => ?_
  cases found with
  | none => exact .pure fun _ => id
  | some d =>
    dsimp only
    split
    · exact points_report (h _ r.mem_landmarks) _
    · exact .pure fun _ => id

end References

section Trees

variable {P : Nat → Prop} {T : ScopeTable → Prop}

mutual

theorem points_resolveExpr (ctx : Context) (site : Site) (e : Expr) (h : AllAt P e.landmarks) :
    Points P T (resolveExpr ctx site e) := by
  match e with
  | .int .. | .bool .. | .null .. => exact .pure fun _ => id
  | .unary op operand pos =>
    exact points_resolveExpr ctx _ operand h.tail
  | .binary op left right pos =>
    obtain ⟨-, inLeft, inRight⟩ := h.parts
    exact (points_resolveExpr ctx _ left inLeft).bind fun _ =>
      points_resolveExpr ctx _ right inRight
  | .ref r pos =>
    have inside : AllAt P r.landmarks := h.tail
    exact (points_resolveRef ctx _ r inside).bind fun _ => .pure fun _ => id
  | .index r i pos =>
    obtain ⟨-, inRef, inIndex⟩ := h.parts
    exact (points_resolveRef ctx _ r inRef).bind fun _ => points_resolveExpr ctx _ i inIndex
  | .call method args pos =>
    obtain ⟨-, inRef, inArgs⟩ := h.parts
    exact (points_resolveMethod ctx _ method inRef).bind fun _ =>
      points_resolveArgs ctx site 0 args inArgs
  | .newObject type pos => exact points_resolveType _ type h.tail
  | .newArray element size pos =>
    obtain ⟨-, inType, inSize⟩ := h.parts
    exact (points_resolveType _ element inType).bind fun _ => points_resolveExpr ctx _ size inSize
  | .unknown kind pos => exact points_foreign (h _ List.mem_cons_self) _ _

theorem points_resolveArgs (ctx : Context) (call : Site) (k : Nat) (args : List Expr)
    (h : AllAt P (Expr.argLandmarks args)) : Points P T (resolveArgs ctx call k args) := by
  match args with
  | [] => exact .pure fun _ => id
  | e :: rest =>
    obtain ⟨here, later⟩ := List.forall_mem_append.mp h
    exact (points_resolveExpr ctx _ e here).bind fun _ =>
      points_resolveArgs ctx call (k + 1) rest later

end

theorem points_rejectDeclaration {branch : Stmt} (h : P branch.pos) :
    Points P T (rejectDeclaration branch) := by
  unfold rejectDeclaration
  split
  · exact points_report h _
  · exact .pure fun _ => id

mutual

/-- A statement keeps what entering keeps, whatever is wrong in it. -/
theorem points_resolveStmt {T : ScopeTable → Prop} (kept : ScopeTable.KeptByEnter T) (ctx : Context)
    (site : Site) (s : Stmt) (h : AllAt P s.landmarks) : Points P T (resolveStmt ctx site s) := by
  match s with
  | .block stmts pos =>
    have inside : AllAt P (Stmt.allLandmarks stmts) := h.tail
    -- The statements are resolved around the scope that is opened, so it is the one that is closed.
    refine logs_openScope fun u holds =>
      (points_resolveStmts (.sameAround u.openScope) ctx site 0 stmts inside).bind fun _ => ?_
    exact (logs_closeScope u).imp (fun _ => id) (by rintro _ n rfl; exact holds)
  | .declare var init pos =>
    obtain ⟨here, inType, inInit⟩ := h.tail.parts
    exact (points_resolveType _ _ inType).bind fun _ => (points_enter here kept).bind fun _ =>
      points_resolveExpr _ _ init inInit
  | .assign target value pos =>
    obtain ⟨-, inRef, inValue⟩ := h.parts
    exact (points_resolveRef ctx _ target inRef).bind fun _ =>
      points_resolveExpr ctx _ value inValue
  | .assignIndex target index value pos =>
    obtain ⟨-, inRef, inIndex, inValue⟩ := h.threeParts
    exact (points_resolveRef ctx _ target inRef).bind fun _ =>
      (points_resolveExpr ctx _ index inIndex).bind
      fun _ => points_resolveExpr ctx _ value inValue
  | .call method args pos =>
    obtain ⟨-, inRef, inArgs⟩ := h.parts
    exact (points_resolveMethod ctx _ method inRef).bind fun _ =>
      points_resolveArgs ctx site 0 args inArgs
  | .ret none pos => exact .pure fun _ => id
  | .ret (some value) pos =>
    exact points_resolveExpr ctx _ value h.tail
  | .ifThen cond body pos | .loop cond body pos =>
    obtain ⟨-, inCond, inBody⟩ := h.parts
    exact (points_resolveExpr ctx _ cond inCond).bind fun _ =>
      (points_rejectDeclaration (inBody _ body.mem_landmarks)).bind fun _ =>
        points_resolveStmt kept ctx _ body inBody
  | .ifElse cond body other pos =>
    obtain ⟨-, inCond, inBody, inOther⟩ := h.threeParts
    exact (points_resolveExpr ctx _ cond inCond).bind fun _ =>
      (points_rejectDeclaration (inBody _ body.mem_landmarks)).bind fun _ =>
        (points_resolveStmt kept ctx _ body inBody).bind fun _ =>
          (points_rejectDeclaration (inOther _ other.mem_landmarks)).bind fun _ =>
            points_resolveStmt kept ctx _ other inOther
  | .unknown kind pos => exact points_foreign (h _ List.mem_cons_self) _ _

theorem points_resolveStmts {T : ScopeTable → Prop} (kept : ScopeTable.KeptByEnter T)
    (ctx : Context) (block : Site) (k : Nat) (stmts : List Stmt)
    (h : AllAt P (Stmt.allLandmarks stmts)) : Points P T (resolveStmts ctx block k stmts) := by
  match stmts with
  | [] => exact .pure fun _ => id
  | s :: rest =>
    obtain ⟨here, later⟩ := List.forall_mem_append.mp h
    exact (points_resolveStmt kept ctx _ s here).bind fun _ =>
      points_resolveStmts kept ctx block (k + 1) rest later

end

theorem points_resolveParams (kept : ScopeTable.KeptByEnter T) (method : Site) (k : Nat)
    (params : List ParamDecl) (h : AllAt P (params.flatMap ParamDecl.landmarks)) :
    Points P T (resolveParams method k params) := by
  induction params generalizing k with
  | nil => exact .pure fun _ => id
  | cons p rest ih =>
    simp only [AllAt, List.flatMap_cons, ParamDecl.landmarks, List.forall_mem_append,
      List.forall_mem_cons] at h
    obtain ⟨⟨here, inType⟩, later⟩ := h
    exact (points_resolveType _ _ inType).bind fun _ =>
      (points_enter here kept).bind fun _ => ih _ later

theorem points_resolveBody (kept : ScopeTable.KeptByEnter T) (ctx : Context) (method : Site)
    (k : Nat) (stmts : List Stmt) (h : AllAt P (Stmt.allLandmarks stmts)) :
    Points P T (resolveBody ctx method k stmts) := by
  induction stmts generalizing k with
  | nil => exact .pure fun _ => id
  | cons s rest ih =>
    obtain ⟨here, later⟩ := List.forall_mem_append.mp h
    exact (points_resolveStmt kept ctx _ s here).bind fun _ => ih _ later

/-- A method closes the scopes that it opens, so it keeps whatever holds of the table. -/
theorem points_resolveMethodDecl (cls : ClassRef) (site : Site) {m : MethodDecl}
    (h : AllAt P m.landmarks) : Points P T (resolveMethodDecl cls site m) := by
  obtain ⟨-, inResult, inParams, inBody⟩ := h.threeParts
  refine (points_resolveType _ _ inResult).bind fun _ => logs_openScope fun u holds => ?_
  refine (points_resolveParams (.sameAround u.openScope) _ _ _ inParams).bind fun _ =>
    logs_openScope fun v around => ?_
  refine (points_resolveBody (.sameAround v.openScope) _ _ _ _ inBody).bind fun _ => ?_
  refine (logs_closeScope v).bind fun _ => (logs_closeScope u).imp ?_ ?_
  · rintro n rfl
    exact around
  · rintro _ n rfl
    exact holds

theorem points_resolveFields (cls : Site) (k : Nat) (fields : List FieldDecl)
    (h : AllAt P (fields.flatMap FieldDecl.landmarks)) :
    Points P T (resolveFields cls k fields) := by
  induction fields generalizing k with
  | nil => exact .pure fun _ => id
  | cons f rest ih =>
    simp only [AllAt, List.flatMap_cons, FieldDecl.landmarks, List.forall_mem_append,
      List.forall_mem_cons] at h
    obtain ⟨⟨-, inType⟩, later⟩ := h
    exact (points_resolveType _ _ inType).bind fun _ => ih _ later

/-- The members of a class stand where they are declared. -/
theorem pos_of_mem_members {c : ClassDecl} {site : Site} (h : AllAt P c.landmarks) :
    ∀ d ∈ c.members site, P d.pos := by
  intro d hd
  rcases List.mem_append.mp ((c.members_perm site).mem_iff.mp hd) with hd | hd
  · obtain ⟨k, hk, rfl⟩ := List.mem_mapIdx.mp hd
    exact c.allAt_field h (List.getElem_mem hk) _ List.mem_cons_self
  · obtain ⟨k, hk, rfl⟩ := List.mem_mapIdx.mp hd
    exact c.allAt_method h (List.getElem_mem hk) _ List.mem_cons_self

theorem points_resolveClass (site : Site) (t : ScopeTable) {c : ClassDecl}
    (h : AllAt P c.landmarks) : Points P (· = t) (resolveClass site c) := by
  have inFields : AllAt P (c.fields.flatMap FieldDecl.landmarks) :=
    List.forall_mem_flatMap.mpr fun f hf => c.allAt_field h hf
  refine logs_openScope (T := (· = t)) ?_
  rintro _ rfl
  -- The members that are entered, the types of fields and the methods change no scope but that of
  -- the class.
  refine Logs.bind (J := fun _ n => _) (.forM fun d hd => ?_) fun _ =>
    (points_resolveFields _ _ _ inFields).bind fun _ =>
      Logs.bind (J := fun _ n => _) (.forM ?_) fun _ => logs_closeScope _
  · refine points_table fun u => ?_
    split
    · exact (points_enter (pos_of_mem_members h d hd) (.sameAround _)).bind fun _ =>
        .pure fun _ => id
    · exact .pure fun _ => id
  · rintro ⟨method, m⟩ hm
    exact points_resolveMethodDecl _ _ (c.allAt_method h (ClassDecl.mem_of_mem_sitedMethods hm))

end Trees

section Collect

variable {P : Nat → Prop}

theorem collecting_predefined : (predefinedTable Predefined.classes).openScope.Collecting P where
  predefined := by
    have registered : ∀ c ∈ Predefined.classes,
        (predefinedTable Predefined.classes).openScope.retrieveClass? c.name ≠ none := by decide
    exact registered
  members := by
    have own : ∀ e ∈ (predefinedTable Predefined.classes).openScope.members,
        ∃ c ∈ Predefined.classes, c.name = e.1.1 := by decide
    exact fun e he => .inl (own e he)

/-- Whether the name of a class is that of no predefined one. -/
def Own (c : ClassRef) : Prop := ∀ c' ∈ Predefined.classes, c'.name ≠ c.name

/-- A class is registered only if it has no predefined name. -/
theorem logs_registerClass {c : ClassRef} (h : P c.pos) :
    Logs (Diagnostic.At P) (fun n => n.table.Collecting P) (registerClass c) fun done n =>
      n.table.Collecting P ∧ (done = true → Own c) := by
  refine logs_table fun t collecting => ?_
  cases registered : t.registerClass? c with
  | ok u =>
    have after : u.Collecting P ∧ Own c := by
      unfold ScopeTable.registerClass? at registered
      split at registered
      · cases registered
      · rename_i new
        cases registered
        refine ⟨⟨fun c' hc' => ?_, collecting.members⟩, fun c' hc' same => ?_⟩
        · unfold ScopeTable.retrieveClass?
          rw [List.lookup_cons]
          split
          · exact Option.some_ne_none _
          · exact collecting.predefined c' hc'
        · exact collecting.predefined c' hc' (same ▸ new)
    refine (logs_setTable u).bind fun _ => .pure ?_
    rintro n rfl
    exact ⟨after.1, fun _ => after.2⟩
  | error fault =>
    refine (points_report (T := (· = t)) h fault).bind fun _ => .pure ?_
    rintro n rfl
    exact ⟨collecting, nofun⟩

/-- The note on a second member of a class that is not predefined stands at the first one. -/
theorem points_registerMember {c : ClassRef} (own : Own c) {d : Decl} (h : P d.pos) :
    Points P (ScopeTable.Collecting P) (registerMember c d) := by
  refine logs_table fun t collecting => ?_
  cases registered : t.registerMember? c d with
  | ok u =>
    have after : u.Collecting P := by
      unfold ScopeTable.registerMember? at registered
      split at registered
      · cases registered
      · cases registered
        exact ⟨collecting.predefined, List.forall_mem_cons.mpr ⟨.inr h, collecting.members⟩⟩
    refine (logs_setTable u).bind fun _ => .pure ?_
    rintro n rfl
    exact after
  | error previous =>
    have first : P previous.pos := by
      unfold ScopeTable.registerMember? at registered
      split at registered
      · rename_i found
        cases registered
        obtain ⟨c', hc', same⟩ | here := collecting.members _ (mem_of_lookup found)
        · exact absurd same (own c' hc')
        · exact here
      · cases registered
    have noted : Points P (· = t) (Pass.note (.naming (.previousMember d.name)) previous.pos) :=
      .note ⟨_, rfl, first⟩
    have refused : Points P (· = t) (do
        reportName (.duplicateMember d.name c.name) d.pos
        return false) := points_refuse h _ _
    refine (noted.bind fun _ => refused).imp (fun _ => id) ?_
    rintro _ n rfl
    exact collecting

theorem points_collectClass (site : Site) {c : ClassDecl} (h : AllAt P c.landmarks) :
    Points P (ScopeTable.Collecting P) (collectClass site c) := by
  have here : P c.pos := h _ List.mem_cons_self
  refine (logs_registerClass (c := c.ref site) here).bind fun done => ?_
  cases done with
  | false => exact .pure fun _ => And.left
  | true =>
    refine .fix fun n ⟨collecting, own⟩ => ?_
    refine Logs.imp (I := fun n => n.table.Collecting P) ?_ (by rintro _ rfl; exact collecting)
      fun _ _ => id
    refine (points_enter here fun _ t u collecting entered => ?_).bind fun _ => .forM fun d hd =>
      (points_registerMember (own rfl) (pos_of_mem_members h d hd)).bind fun _ => .pure fun _ => id
    obtain ⟨-, ⟨-, rfl⟩ | ⟨scope, outer, -, rfl⟩⟩ := ScopeTable.entered_of_enter? entered
    · exact ⟨collecting.predefined, collecting.members⟩
    · exact ⟨collecting.predefined, collecting.members⟩

/-- Collecting starts from the fresh table. -/
theorem logs_collect {p : Program} (h : AllAt P p.landmarks) (bindings : SiteMap Decl) :
    Logs (Diagnostic.At P) ({ bindings := bindings } = ·) (collect p) fun _ n =>
      n.table.Collecting P := by
  rw [collect_eq_then]
  refine (Logs.of_run fun log => run_collectPredefineds log bindings).bind fun _ => ?_
  refine Logs.imp (I := fun n => n.table.Collecting P) (.forM ?_) ?_ fun _ _ => id
  · intro c hc
    exact points_collectClass c.1 (p.allAt_class h hc)
  · rintro n ⟨-, rfl⟩
    exact collecting_predefined

/-- Whatever becomes of resolution, all that it writes stands at landmarks of the program. -/
theorem logs_resolve {p : Program} (h : AllAt P p.landmarks) (bindings : SiteMap Decl) :
    Logs (Diagnostic.At P) ({ bindings := bindings } = ·) (resolve p) fun _ _ => True := by
  refine (logs_collect h bindings).bind fun _ => logs_table fun t _ => ?_
  refine Logs.imp (.forM ?_) (fun _ => id) fun _ _ _ => trivial
  rintro ⟨site, c⟩ hc
  exact points_resolveClass site t (p.allAt_class h (List.mem_of_mem_filter hc))

end Collect

end Resolving

end JamCompiler

import JamCompiler.Proofs.Binding
import JamCompiler.Proofs.Typing.Rules

/-!
# Declared types

Resolution binds names only to declarations that stand in the program or in the predefined
environment, so the types of what is bound are as a program can write them. That is so of every run,
also of one that reports errors or is stopped.
-/

namespace JamCompiler

namespace Pass

variable {σ α β : Type}

/-- However a run ends, it keeps a property of its state; if it comes to its end, something holds of
its answer. -/
structure Keeps (I : σ → Prop) (x : Pass σ α) (P : α → Prop) : Prop where
  ended : ∀ {w v : Work σ} {a : α}, I w.own → EStateM.run x w = .ok a v → I v.own ∧ P a
  stopped : ∀ {w v : Work σ} {stop : Stop}, I w.own → EStateM.run x w = .error stop v → I v.own

namespace Keeps

variable {I : σ → Prop} {x : Pass σ α} {f : α → Pass σ β} {P Q : α → Prop} {R : β → Prop}

theorem pure {a : α} (h : P a) : Keeps I (Pure.pure a) P := by
  refine ⟨fun keeps run => ?_, fun _ => nofun⟩
  cases run
  exact ⟨keeps, h⟩

theorem bind (first : Keeps I x P) (next : ∀ a, P a → Keeps I (f a) R) : Keeps I (x >>= f) R := by
  constructor
  · intro w v b keeps run
    rw [EStateM.run_bind] at run
    split at run
    · rename_i a u run'
      obtain ⟨keeps', holds⟩ := first.ended keeps run'
      exact (next a holds).ended keeps' run
    · cases run
  · intro w v stop keeps run
    rw [EStateM.run_bind] at run
    split at run
    · rename_i a u run'
      obtain ⟨keeps', holds⟩ := first.ended keeps run'
      exact (next a holds).stopped keeps' run
    · rename_i stop u run'
      cases run
      exact first.stopped keeps run'

theorem getOwn : Keeps I Pass.getOwn I := by
  refine ⟨fun keeps run => ?_, fun _ => nofun⟩
  cases run
  exact ⟨keeps, keeps⟩

theorem modifyOwn {g : σ → σ} (h : ∀ s, I s → I (g s)) :
    Keeps I (Pass.modifyOwn g) fun _ => True := by
  refine ⟨fun keeps run => ?_, fun _ => nofun⟩
  cases run
  exact ⟨h _ keeps, trivial⟩

theorem fatal {fault : Fault} {pos : Nat} : Keeps I (Pass.fatal fault pos : Pass σ α) P := by
  refine ⟨fun _ => nofun, fun keeps run => ?_⟩
  cases run
  exact keeps

theorem report {fault : Fault} {pos : Nat} : Keeps I (Pass.report fault pos) fun _ => True := by
  constructor
  · intro w v a keeps run
    rw [run_report] at run
    split at run
    · cases run
    · cases run
      exact ⟨keeps, trivial⟩
  · intro w v stop keeps run
    rw [run_report] at run
    split at run
    · cases run
      exact keeps
    · cases run

theorem note {fault : Fault} {pos : Nat} : Keeps I (Pass.note fault pos) fun _ => True := by
  refine ⟨fun keeps run => ?_, fun _ => nofun⟩
  cases run
  exact ⟨keeps, trivial⟩

theorem forM {xs : List α} {g : α → Pass σ Unit} (h : ∀ a ∈ xs, Keeps I (g a) fun _ => True) :
    Keeps I (xs.forM g) fun _ => True := by
  induction xs with
  | nil => exact .pure trivial
  | cons a rest ih =>
    obtain ⟨here, later⟩ := List.forall_mem_cons.mp h
    exact here.bind fun _ _ => ih later

/-- Whatever a run answers, its state is kept. -/
theorem run_own (h : Keeps I x P) {log : Log} {s : σ} {w : Work σ} {answer : Except Stop α}
    (run : x.run log s = (w, answer)) (keeps : I s) : I w.own := by
  unfold Pass.run at run
  split at run
  · rename_i ended
    cases run
    exact (h.ended keeps ended).1
  · rename_i stopped
    cases run
    exact h.stopped keeps stopped

end Keeps

end Pass

open Pass

namespace Decl

theorem written_length : Predefined.length.Written := trivial

end Decl

theorem Predefined.members_written {c : ClassRef} : ∀ d ∈ Predefined.members c, d.Written := by
  unfold members
  split
  · exact List.forall_mem_singleton.mpr ⟨.inr rfl, List.forall_mem_singleton.mpr trivial⟩
  · split
    · exact List.forall_mem_singleton.mpr trivial
    · exact nofun

theorem ClassDecl.Written.members_written {c : ClassDecl} (written : c.Written) {site : Site} :
    ∀ d ∈ c.members site, d.Written := by
  intro d hd
  rcases List.mem_append.mp ((c.members_perm site).mem_iff.mp hd) with hd | hd
  · obtain ⟨k, hk, rfl⟩ := List.mem_mapIdx.mp hd
    exact written.fields _ (List.getElem_mem hk)
  · obtain ⟨k, hk, rfl⟩ := List.mem_mapIdx.mp hd
    have shape := written.methods _ (List.getElem_mem hk)
    exact ⟨shape.result, shape.params⟩

/-- A table in which every declaration has written types. -/
structure ScopeTable.Written (t : ScopeTable) : Prop where
  scopes : ∀ scope ∈ t.inner ++ [t.predefined], ∀ e ∈ scope, e.2.Written
  members : ∀ e ∈ t.members, e.2.Written

namespace ScopeTable.Written

variable {t u : ScopeTable} {d : Decl}

theorem retrieve? (h : t.Written) {name : String}
    (found : t.retrieve? name = some d) : d.Written := by
  obtain ⟨scope, hs, known⟩ := List.exists_of_findSome?_eq_some found
  exact h.scopes scope hs _ (mem_of_lookup known)

theorem retrieveMember? (h : t.Written) {cls name : String}
    (found : t.retrieveMember? cls name = some d) : d.Written :=
  h.members _ (mem_of_lookup found)

theorem openScope (h : t.Written) : t.openScope.Written :=
  ⟨List.forall_mem_cons.mpr ⟨nofun, h.scopes⟩, h.members⟩

theorem closeScope? (h : t.Written) (closed : t.closeScope? = .ok u) : u.Written := by
  unfold ScopeTable.closeScope? at closed
  split at closed
  · cases closed
  · rename_i scope outer inner
    cases closed
    have scopes := h.scopes
    rw [inner, List.cons_append, List.forall_mem_cons] at scopes
    exact ⟨scopes.2, h.members⟩

theorem enter? (h : t.Written) (written : d.Written)
    (entered : t.enter? d = .ok u) : u.Written := by
  have scopes := h.scopes
  unfold ScopeTable.enter? at entered
  split at entered
  · cases entered
  split at entered
  · cases entered
  split at entered
  · rename_i inner
    cases entered
    rw [inner, List.nil_append, List.forall_mem_singleton] at scopes
    refine ⟨?_, h.members⟩
    rw [inner, List.nil_append, List.forall_mem_singleton]
    exact List.forall_mem_cons.mpr ⟨written, scopes⟩
  · rename_i scope outer inner
    cases entered
    rw [inner, List.cons_append, List.forall_mem_cons] at scopes
    refine ⟨?_, h.members⟩
    rw [List.cons_append, List.forall_mem_cons]
    exact ⟨List.forall_mem_cons.mpr ⟨written, scopes.1⟩, scopes.2⟩

theorem registerClass? {c : ClassRef} (h : t.Written) (registered : t.registerClass? c = .ok u) :
    u.Written := by
  unfold ScopeTable.registerClass? at registered
  split at registered
  · cases registered
  · cases registered
    exact ⟨h.scopes, h.members⟩

theorem registerMember? {c : ClassRef} (h : t.Written) (written : d.Written)
    (registered : t.registerMember? c d = .ok u) : u.Written := by
  unfold ScopeTable.registerMember? at registered
  split at registered
  · cases registered
  · cases registered
    exact ⟨h.scopes, List.forall_mem_cons.mpr ⟨written, h.members⟩⟩

end ScopeTable.Written

/-- A state of resolution in which everything that is declared or bound has written types. -/
structure Naming.Written (n : Naming) : Prop where
  table : n.table.Written
  bindings : ∀ site d, n.bindings.get? site = some d → d.Written

namespace Resolving

/-- A step that keeps the types of declarations written. -/
abbrev KeepsWritten {α : Type} (x : Resolving α) (P : α → Prop) : Prop := Keeps Naming.Written x P

/-- What a reference was bound to, if it was. -/
abbrev Found (o : Option Decl) : Prop := ∀ d, o = some d → d.Written

theorem found_none : Found none := by
  rintro _ ⟨⟩

section Steps

variable {α : Type} {P : α → Prop}

theorem keeps_report (fault : NameFault) (pos : Nat) :
    KeepsWritten (reportName fault pos) fun _ => True :=
  .report

theorem keeps_refuse (fault : NameFault) (pos : Nat) {a : α} (h : P a) :
    KeepsWritten (do reportName fault pos; return a) P :=
  (keeps_report fault pos).bind fun _ _ => .pure h

theorem keeps_table : KeepsWritten table ScopeTable.Written :=
  Keeps.getOwn.bind fun _ h => .pure h.table

theorem keeps_setTable {t : ScopeTable} (h : t.Written) : KeepsWritten (setTable t) fun _ => True :=
  .modifyOwn fun _ keeps => ⟨h, keeps.bindings⟩

theorem keeps_bound : KeepsWritten bound fun b => ∀ site d, b site = some d → d.Written :=
  Keeps.getOwn.bind fun _ h => .pure h.bindings

theorem keeps_bind (site : Site) {d : Decl} (h : d.Written) :
    KeepsWritten (bind site d) Decl.Written := by
  refine Keeps.bind (P := fun _ => True)
    (.modifyOwn fun n keeps => ⟨keeps.table, fun s e known => ?_⟩)
    fun _ _ => keeps_bound.bind fun b hb => .pure ?_
  · by_cases same : s = site
    · subst same
      rw [SiteMap.get?_fill_self] at known
      cases old : n.bindings.get? s with
      | none =>
        rw [old] at known
        exact Option.some.inj known ▸ h
      | some e' =>
        rw [old] at known
        exact keeps.bindings s e (old.trans known)
    · rw [SiteMap.get?_fill_of_ne _ _ same] at known
      exact keeps.bindings s e known
  · cases known : b site with
    | none => exact h
    | some e => exact hb site e known

theorem keeps_openScope : KeepsWritten openScope fun _ => True :=
  keeps_table.bind fun _ h => keeps_setTable h.openScope

theorem keeps_closeScope : KeepsWritten closeScope fun _ => True := by
  refine keeps_table.bind fun t h => ?_
  cases closed : t.closeScope? with
  | ok u => exact keeps_setTable (h.closeScope? closed)
  | error fault => exact .fatal

theorem keeps_enter {d : Decl} (written : d.Written) (pos : Nat) :
    KeepsWritten (enter d pos) fun _ => True := by
  refine keeps_table.bind fun t h => ?_
  cases entered : t.enter? d with
  | ok u => exact (keeps_setTable (h.enter? written entered)).bind fun _ _ => .pure trivial
  | error fault => exact keeps_refuse _ _ trivial

theorem keeps_registerClass (c : ClassRef) : KeepsWritten (registerClass c) fun _ => True := by
  refine keeps_table.bind fun t h => ?_
  cases registered : t.registerClass? c with
  | ok u => exact (keeps_setTable (h.registerClass? registered)).bind fun _ _ => .pure trivial
  | error fault => exact keeps_refuse _ _ trivial

theorem keeps_registerMember (c : ClassRef) {d : Decl} (written : d.Written) :
    KeepsWritten (registerMember c d) fun _ => True := by
  refine keeps_table.bind fun t h => ?_
  cases registered : t.registerMember? c d with
  | ok u =>
    exact (keeps_setTable (h.registerMember? written registered)).bind fun _ _ => .pure trivial
  | error previous => exact Keeps.note.bind fun _ _ => keeps_refuse _ _ trivial

theorem keeps_registerMembers (c : ClassRef) {members : List Decl}
    (written : ∀ d ∈ members, d.Written) : KeepsWritten (registerMembers c members) fun _ => True :=
  .forM fun d hd => (keeps_registerMember c (written d hd)).bind fun _ _ => .pure trivial

theorem keeps_collect {p : Program} (written : p.Written) :
    KeepsWritten (collect p) fun _ => True := by
  refine Keeps.bind (P := fun _ => True) (.forM fun c _ => ?_) fun _ _ =>
    keeps_openScope.bind fun _ _ => .forM ?_
  · exact (keeps_enter (d := .cls c) trivial 0).bind fun _ _ =>
      (keeps_registerClass c).bind fun _ _ =>
      keeps_registerMembers c Predefined.members_written
  · rintro ⟨site, c⟩ hc
    obtain ⟨k, hk, -⟩ := Program.mem_sitedClasses.mp hc
    refine (keeps_registerClass (c.ref site)).bind fun done _ => ?_
    cases done with
    | true =>
      exact (keeps_enter (d := .cls (c.ref site)) trivial c.pos).bind fun _ _ =>
        keeps_registerMembers _ (written c (List.mem_of_getElem? hk)).members_written
    | false => exact .pure trivial

theorem keeps_resolveType (site : Site) (t : TypeExpr) :
    KeepsWritten (resolveType site t) fun _ => True := by
  induction t generalizing site with
  | base b pos => exact .pure trivial
  | array element pos ih => exact ih _
  | unknown kind pos => exact .fatal
  | named name pos =>
    refine keeps_bound.bind fun b _ => ?_
    split
    · exact .pure trivial
    · refine keeps_table.bind fun t _ => ?_
      split
      · exact (keeps_bind _ (d := .cls _) trivial).bind fun _ _ => .pure trivial
      · exact keeps_report _ _

end Steps

section References

variable (ctx : Context)

theorem keeps_none (fault : NameFault) (pos : Nat) :
    KeepsWritten (do reportName fault pos; return (none : Option Decl)) Found :=
  keeps_refuse fault pos found_none

theorem keeps_some (site : Site) {d : Decl} (h : d.Written) :
    KeepsWritten (do return some (← bind site d)) Found :=
  (keeps_bind site h).bind fun _ written => .pure fun _ same => Option.some.inj same ▸ written

theorem keeps_resolveName (site : Site) (name : Identifier) :
    KeepsWritten (resolveName ctx site name) Found := by
  refine keeps_table.bind fun t h => ?_
  cases found : t.retrieve? name.spelling with
  | none => exact keeps_none _ _
  | some d =>
    dsimp only
    split
    · exact keeps_none _ _
    · split
      · split <;> exact keeps_none _ _
      · exact keeps_some site (h.retrieve? found)

theorem keeps_memberOf (c : ClassRef) (name : Identifier) :
    KeepsWritten (memberOf ctx c name) Found := by
  refine keeps_table.bind fun t h => ?_
  cases found : t.retrieveMember? c.name name.spelling with
  | none => exact keeps_none _ _
  | some d =>
    dsimp only
    split
    · exact keeps_none _ _
    · exact .pure fun _ same => Option.some.inj same ▸ h.retrieveMember? found

theorem keeps_memberOfClass (c : ClassRef) (name : Identifier) :
    KeepsWritten (memberOfClass ctx c name) Found := by
  refine (keeps_memberOf ctx c name).bind fun o found => ?_
  cases o with
  | none => exact .pure found_none
  | some d =>
    dsimp only
    split
    · exact .pure found
    · exact keeps_none _ _

theorem keeps_memberOfValue (owner : Decl) (pos : Nat) (name : Identifier) :
    KeepsWritten (memberOfValue ctx owner pos name) Found := by
  refine keeps_bound.bind fun b _ => ?_
  dsimp only
  split
  · split
    · exact .pure fun _ same => Option.some.inj same ▸ Decl.written_length
    · exact keeps_none _ _
  · exact keeps_memberOf ctx _ name
  · exact .pure found_none
  · exact keeps_none _ _

theorem keeps_memberAfter (qualifier : Reference) (base : Decl) (name : Identifier) :
    KeepsWritten (memberAfter ctx qualifier base name) Found := by
  unfold memberAfter
  split
  · exact keeps_none _ _
  · exact keeps_memberOf ctx _ name
  · exact keeps_memberOfClass ctx _ name
  · exact keeps_memberOfValue ctx _ _ name

theorem keeps_resolveRef (site : Site) (r : Reference) :
    KeepsWritten (resolveRef ctx site r) Found := by
  induction r generalizing site with
  | unknown kind pos => exact .fatal
  | this pos =>
    unfold resolveRef
    split
    · exact keeps_none _ _
    · exact keeps_some site (d := .cls ctx.cls) trivial
  | ident name pos =>
    refine (keeps_resolveName ctx _ name).bind fun o found => ?_
    cases o with
    | none => exact .pure found_none
    | some d => exact keeps_some site (found d rfl)
  | qualified qualifier name pos ih =>
    refine (ih _).bind fun o _ => ?_
    cases o with
    | none => exact .pure found_none
    | some base =>
      refine (keeps_memberAfter ctx qualifier base name).bind fun o found => ?_
      cases o with
      | none => exact .pure found_none
      | some d => exact (keeps_bind _ (found d rfl)).bind fun _ h => keeps_some site h

theorem keeps_resolveMethod (site : Site) (r : Reference) :
    KeepsWritten (resolveMethod ctx site r) fun _ => True := by
  refine (keeps_resolveRef ctx site r).bind fun o _ => ?_
  cases o with
  | none => exact .pure trivial
  | some d =>
    dsimp only
    split
    · exact keeps_report _ _
    · exact .pure trivial

end References

mutual

theorem keeps_resolveExpr (ctx : Context) (site : Site) :
    ∀ e : Expr, KeepsWritten (resolveExpr ctx site e) fun _ => True
  | .int .. | .bool .. | .null .. => .pure trivial
  | .unary _ operand _ => keeps_resolveExpr ctx _ operand
  | .binary _ left right _ =>
    (keeps_resolveExpr ctx _ left).bind fun _ _ => keeps_resolveExpr ctx _ right
  | .ref r _ => (keeps_resolveRef ctx _ r).bind fun _ _ => .pure trivial
  | .index r index _ => (keeps_resolveRef ctx _ r).bind fun _ _ => keeps_resolveExpr ctx _ index
  | .call method args _ =>
    (keeps_resolveMethod ctx _ method).bind fun _ _ => keeps_resolveArgs ctx site 0 args
  | .newObject type _ => keeps_resolveType _ type
  | .newArray element size _ =>
    (keeps_resolveType _ element).bind fun _ _ => keeps_resolveExpr ctx _ size
  | .unknown .. => .fatal

theorem keeps_resolveArgs (ctx : Context) (call : Site) (k : Nat) :
    ∀ args : List Expr, KeepsWritten (resolveArgs ctx call k args) fun _ => True
  | [] => .pure trivial
  | e :: rest => (keeps_resolveExpr ctx _ e).bind fun _ _ => keeps_resolveArgs ctx call (k + 1) rest

end

theorem keeps_rejectDeclaration (branch : Stmt) :
    KeepsWritten (rejectDeclaration branch) fun _ => True := by
  unfold rejectDeclaration
  split
  · exact keeps_report _ _
  · exact .pure trivial

mutual

theorem keeps_resolveStmt (ctx : Context) (site : Site) :
    ∀ s : Stmt, s.Written → KeepsWritten (resolveStmt ctx site s) fun _ => True
  | .block stmts _, h =>
    keeps_openScope.bind fun _ _ =>
      (keeps_resolveStmts ctx site 0 stmts h).bind fun _ _ => keeps_closeScope
  | .declare var init _, h =>
    (keeps_resolveType _ var.type).bind fun _ _ =>
      (keeps_enter (d := .var site.var var) h.1 _).bind fun _ _ =>
      keeps_resolveExpr _ _ init
  | .assign target value _, _ =>
    (keeps_resolveRef ctx _ target).bind fun _ _ => keeps_resolveExpr ctx _ value
  | .assignIndex target index value _, _ =>
    (keeps_resolveRef ctx _ target).bind fun _ _ => (keeps_resolveExpr ctx _ index).bind fun _ _ =>
      keeps_resolveExpr ctx _ value
  | .call method args _, _ =>
    (keeps_resolveMethod ctx _ method).bind fun _ _ => keeps_resolveArgs ctx site 0 args
  | .ret none _, _ => .pure trivial
  | .ret (some value) _, _ => keeps_resolveExpr ctx _ value
  | .ifThen cond body _, h | .loop cond body _, h =>
    (keeps_resolveExpr ctx _ cond).bind fun _ _ => (keeps_rejectDeclaration body).bind fun _ _ =>
      keeps_resolveStmt ctx _ body h.2
  | .ifElse cond body other _, h =>
    (keeps_resolveExpr ctx _ cond).bind fun _ _ => (keeps_rejectDeclaration body).bind fun _ _ =>
      (keeps_resolveStmt ctx _ body h.2.1).bind fun _ _ =>
        (keeps_rejectDeclaration other).bind fun _ _ =>
        keeps_resolveStmt ctx _ other h.2.2
  | .unknown .., _ => .fatal

theorem keeps_resolveStmts (ctx : Context) (block : Site) (k : Nat) :
    ∀ stmts : List Stmt, Stmt.AllWritten stmts →
      KeepsWritten (resolveStmts ctx block k stmts) fun _ => True
  | [], _ => .pure trivial
  | s :: rest, h =>
    (keeps_resolveStmt ctx _ s h.1).bind fun _ _ => keeps_resolveStmts ctx block (k + 1) rest h.2

end

theorem keeps_resolveParams (method : Site) (k : Nat) (params : List ParamDecl)
    (h : ∀ p ∈ params, p.type.Written) :
    KeepsWritten (resolveParams method k params) fun _ => True := by
  induction params generalizing k with
  | nil => exact .pure trivial
  | cons p rest ih =>
    obtain ⟨here, later⟩ := List.forall_mem_cons.mp h
    exact (keeps_resolveType _ _).bind fun _ _ =>
      (keeps_enter (d := .param (method.param k) p) here _).bind fun _ _ => ih _ later

theorem keeps_resolveBody (ctx : Context) (method : Site) (k : Nat) (stmts : List Stmt)
    (h : Stmt.AllWritten stmts) : KeepsWritten (resolveBody ctx method k stmts) fun _ => True := by
  induction stmts generalizing k with
  | nil => exact .pure trivial
  | cons s rest ih => exact (keeps_resolveStmt ctx _ s h.1).bind fun _ _ => ih _ h.2

theorem keeps_resolveMethodDecl (cls : ClassRef) (site : Site) {m : MethodDecl} (h : m.Written) :
    KeepsWritten (resolveMethodDecl cls site m) fun _ => True :=
  (keeps_resolveType _ _).bind fun _ _ => keeps_openScope.bind fun _ _ =>
    (keeps_resolveParams _ _ _ h.params).bind fun _ _ => keeps_openScope.bind fun _ _ =>
      (keeps_resolveBody _ _ _ _ h.body).bind fun _ _ =>
        keeps_closeScope.bind fun _ _ => keeps_closeScope

theorem keeps_resolveFields (cls : Site) (k : Nat) (fields : List FieldDecl) :
    KeepsWritten (resolveFields cls k fields) fun _ => True := by
  induction fields generalizing k with
  | nil => exact .pure trivial
  | cons f rest ih => exact (keeps_resolveType _ _).bind fun _ _ => ih _

theorem keeps_resolveClass (site : Site) {c : ClassDecl} (h : c.Written) :
    KeepsWritten (resolveClass site c) fun _ => True := by
  refine keeps_openScope.bind fun _ _ =>
    Keeps.bind (P := fun _ => True) (.forM fun d hd => ?_) fun _ _ =>
    (keeps_resolveFields _ _ _).bind fun _ _ =>
      Keeps.bind (P := fun _ => True) (.forM ?_) fun _ _ => keeps_closeScope
  · refine keeps_table.bind fun t _ => ?_
    split
    · exact (keeps_enter (h.members_written d hd) _).bind fun _ _ => .pure trivial
    · exact .pure trivial
  · rintro ⟨method, m⟩ hm
    exact keeps_resolveMethodDecl _ _ (h.methods m (ClassDecl.mem_of_mem_sitedMethods hm))

theorem keeps_resolve {p : Program} (written : p.Written) :
    KeepsWritten (resolve p) fun _ => True := by
  refine (keeps_collect written).bind fun _ _ => keeps_table.bind fun t _ => .forM ?_
  rintro ⟨site, c⟩ hc
  obtain ⟨k, hk, -⟩ := Program.mem_sitedClasses.mp (List.mem_of_mem_filter hc)
  exact keeps_resolveClass site (written c (List.mem_of_getElem? hk))

end Resolving

/-- Whatever resolution of a written program answers, the types of what is bound are written. -/
theorem Program.declared_of_resolve {p : Program} {failFast : Bool} {c : Compilation}
    {t : ScopeTable} {answer : Except Stop Unit} (written : p.Written)
    (resolved : (p.start failFast).resolve = (c, t, answer)) :
    ∀ site d, c.bindings.get? site = some d → d.Written := by
  obtain ⟨w, run, -, rfl⟩ := Compilation.run_of_resolve resolved
  have start : Naming.Written { bindings := (p.start failFast).bindings } :=
    ⟨⟨by simp, nofun⟩, nofun⟩
  exact ((Resolving.keeps_resolve written).run_own run start).bindings

end JamCompiler

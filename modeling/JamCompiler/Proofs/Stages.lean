import JamCompiler.Compile
import JamCompiler.Proofs.CleanRun
import JamCompiler.Proofs.Naming.Use
import JamCompiler.Proofs.Reading.Written

/-!
# What the stages report

Every stage is a plain pass, and reports and aborts with faults of its own kind only: resolution
with faults of names, typing with faults of types, generation with faults of code. Typing never
reports that a reference is unresolved; it aborts with that fault, and only where a reference of the
program is unbound. It aborts with other faults only where a tree is foreign.
-/

namespace JamCompiler

open Pass

theorem Pass.Plain.forM {σ α : Type} {R : Fault → Prop} {S : Option Fault → Prop}
    {f : α → Pass σ Unit} {xs : List α} (h : ∀ x ∈ xs, Plain R S (f x)) :
    Plain R S (xs.forM f) := by
  induction xs with
  | nil => exact .pure _
  | cons x rest ih =>
    exact .bind (h x List.mem_cons_self) fun _ => ih fun y hy => h y (List.mem_cons_of_mem _ hy)

namespace Resolving

/-- A step of resolution that reports faults of names only. -/
abbrev Names {α : Type} (x : Resolving α) : Prop :=
  Plain (∃ f, · = Fault.naming f) (∃ f, · = some (Fault.naming f)) x

theorem names_report (fault : NameFault) (pos : Nat) : Names (reportName fault pos) :=
  .report pos ⟨fault, rfl⟩

theorem names_refuse {α : Type} (fault : NameFault) (pos : Nat) (a : α) :
    Names (do reportName fault pos; return a) :=
  .bind (names_report fault pos) fun _ => .pure a

theorem names_table : Names table := .bind .getOwn fun _ => .pure _

theorem names_setTable (t : ScopeTable) : Names (setTable t) := .modifyOwn _

theorem names_bound : Names bound := .bind .getOwn fun _ => .pure _

theorem names_bind (site : Site) (d : Decl) : Names (bind site d) :=
  .bind (.modifyOwn _) fun _ => .bind names_bound fun _ => .pure _

theorem names_openScope : Names openScope := .bind names_table fun _ => names_setTable _

theorem names_closeScope : Names closeScope := by
  refine .bind names_table fun t => ?_
  cases t.closeScope? with
  | ok t => exact names_setTable t
  | error fault => exact .fatal 0 ⟨fault, rfl⟩

theorem names_enter (d : Decl) (pos : Nat) : Names (enter d pos) := by
  refine .bind names_table fun t => ?_
  cases t.enter? d with
  | ok t => exact .bind (names_setTable t) fun _ => .pure _
  | error fault => exact names_refuse _ _ _

theorem names_registerClass (c : ClassRef) : Names (registerClass c) := by
  refine .bind names_table fun t => ?_
  cases t.registerClass? c with
  | ok t => exact .bind (names_setTable t) fun _ => .pure _
  | error fault => exact names_refuse _ _ _

theorem names_registerMember (c : ClassRef) (d : Decl) : Names (registerMember c d) := by
  refine .bind names_table fun t => ?_
  cases t.registerMember? c d with
  | ok t => exact .bind (names_setTable t) fun _ => .pure _
  | error previous => exact .bind (.note _ _) fun _ => names_refuse _ _ _

theorem names_registerMembers (c : ClassRef) (members : List Decl) :
    Names (registerMembers c members) :=
  .forM fun d _ => .bind (names_registerMember c d) fun _ => .pure _

theorem names_collect (p : Program) : Names (collect p) := by
  refine .bind (.forM fun c _ => ?_) fun _ => .bind names_openScope fun _ => .forM ?_
  · exact .bind (names_enter _ _) fun _ => .bind (names_registerClass c) fun _ =>
      names_registerMembers _ _
  · rintro ⟨site, c⟩ -
    refine .bind (names_registerClass _) fun done => ?_
    cases done with
    | true => exact .bind (names_enter _ _) fun _ => names_registerMembers _ _
    | false => exact .pure _

theorem names_resolveType (site : Site) (t : TypeExpr) : Names (resolveType site t) := by
  induction t generalizing site with
  | base b pos => exact .pure _
  | array element pos ih => exact ih _
  | unknown kind pos => exact .fatal pos ⟨_, rfl⟩
  | named name pos =>
    refine .bind names_bound fun bound => ?_
    split
    · exact .pure _
    · refine .bind names_table fun t => ?_
      split
      · exact .bind (names_bind _ _) fun _ => .pure _
      · exact names_report _ _

variable (ctx : Context)

theorem names_resolveName (site : Site) (name : Identifier) :
    Names (resolveName ctx site name) := by
  refine .bind names_table fun t => ?_
  split
  · exact names_refuse _ _ _
  · split
    · exact names_refuse _ _ _
    · split
      · split <;> exact names_refuse _ _ _
      · exact .bind (names_bind _ _) fun _ => .pure _

theorem names_memberOf (c : ClassRef) (name : Identifier) : Names (memberOf ctx c name) := by
  refine .bind names_table fun t => ?_
  split
  · exact names_refuse _ _ _
  · split
    · exact names_refuse _ _ _
    · exact .pure _

theorem names_memberAfter (qualifier : Reference) (base : Decl) (name : Identifier) :
    Names (memberAfter ctx qualifier base name) := by
  have afterClass : ∀ c, Names (memberOfClass ctx c name) := by
    intro c
    refine .bind (names_memberOf ctx c name) fun o => ?_
    split
    · exact .pure _
    · split
      · exact .pure _
      · exact names_refuse _ _ _
  have afterValue : ∀ owner pos, Names (memberOfValue ctx owner pos name) := by
    intro owner pos
    refine .bind names_bound fun bound => ?_
    dsimp only
    split
    · split
      · exact .pure _
      · exact names_refuse _ _ _
    · exact names_memberOf ctx _ name
    · exact .pure _
    · exact names_refuse _ _ _
  unfold memberAfter
  split
  · exact names_refuse _ _ _
  · exact names_memberOf ctx _ name
  · exact afterClass _
  · exact afterValue _ _

theorem names_resolveRef (site : Site) (r : Reference) : Names (resolveRef ctx site r) := by
  induction r generalizing site with
  | unknown kind pos => exact .fatal pos ⟨_, rfl⟩
  | this pos =>
    unfold resolveRef
    split
    · exact names_refuse _ _ _
    · exact .bind (names_bind _ _) fun _ => .pure _
  | ident name pos =>
    refine .bind (names_resolveName ctx _ name) fun o => ?_
    split
    · exact .pure _
    · exact .bind (names_bind _ _) fun _ => .pure _
  | qualified qualifier name pos ih =>
    refine .bind (ih _) fun o => ?_
    split
    · exact .pure _
    · refine .bind (names_memberAfter ctx qualifier _ name) fun o => ?_
      split
      · exact .pure _
      · exact .bind (names_bind _ _) fun _ => .bind (names_bind _ _) fun _ => .pure _

theorem names_resolveMethod (site : Site) (r : Reference) : Names (resolveMethod ctx site r) := by
  refine .bind (names_resolveRef ctx site r) fun o => ?_
  split
  · exact .pure _
  · split
    · exact names_report _ _
    · exact .pure _

mutual

theorem names_resolveExpr (ctx : Context) (site : Site) : ∀ e : Expr, Names (resolveExpr ctx site e)
  | .int .. | .bool .. | .null .. => .pure _
  | .unary _ operand _ => names_resolveExpr ctx _ operand
  | .binary _ left right _ =>
    .bind (names_resolveExpr ctx _ left) fun _ => names_resolveExpr ctx _ right
  | .ref r _ => .bind (names_resolveRef ctx _ r) fun _ => .pure _
  | .index r index _ => .bind (names_resolveRef ctx _ r) fun _ => names_resolveExpr ctx _ index
  | .call method args _ =>
    .bind (names_resolveMethod ctx _ method) fun _ => names_resolveArgs ctx site 0 args
  | .newObject type _ => names_resolveType _ type
  | .newArray element size _ =>
    .bind (names_resolveType _ element) fun _ => names_resolveExpr ctx _ size
  | .unknown _ pos => .fatal pos ⟨_, rfl⟩

theorem names_resolveArgs (ctx : Context) (call : Site) (k : Nat) :
    ∀ args : List Expr, Names (resolveArgs ctx call k args)
  | [] => .pure _
  | e :: rest => .bind (names_resolveExpr ctx _ e) fun _ => names_resolveArgs ctx call (k + 1) rest

end

theorem names_rejectDeclaration (branch : Stmt) : Names (rejectDeclaration branch) := by
  unfold rejectDeclaration
  split
  · exact names_report _ _
  · exact .pure _

mutual

theorem names_resolveStmt (ctx : Context) (site : Site) : ∀ s : Stmt, Names (resolveStmt ctx site s)
  | .block stmts _ =>
    .bind names_openScope fun _ => .bind (names_resolveStmts ctx site 0 stmts) fun _ =>
      names_closeScope
  | .declare var init _ =>
    .bind (names_resolveType _ var.type) fun _ => .bind (names_enter _ _) fun _ =>
      names_resolveExpr _ _ init
  | .assign target value _ =>
    .bind (names_resolveRef ctx _ target) fun _ => names_resolveExpr ctx _ value
  | .assignIndex target index value _ =>
    .bind (names_resolveRef ctx _ target) fun _ => .bind (names_resolveExpr ctx _ index) fun _ =>
      names_resolveExpr ctx _ value
  | .call method args _ =>
    .bind (names_resolveMethod ctx _ method) fun _ => names_resolveArgs ctx site 0 args
  | .ret none _ => .pure _
  | .ret (some value) _ => names_resolveExpr ctx _ value
  | .ifThen cond body _ | .loop cond body _ =>
    .bind (names_resolveExpr ctx _ cond) fun _ => .bind (names_rejectDeclaration body) fun _ =>
      names_resolveStmt ctx _ body
  | .ifElse cond body other _ =>
    .bind (names_resolveExpr ctx _ cond) fun _ => .bind (names_rejectDeclaration body) fun _ =>
      .bind (names_resolveStmt ctx _ body) fun _ => .bind (names_rejectDeclaration other) fun _ =>
        names_resolveStmt ctx _ other
  | .unknown _ pos => .fatal pos ⟨_, rfl⟩

theorem names_resolveStmts (ctx : Context) (block : Site) (k : Nat) :
    ∀ stmts : List Stmt, Names (resolveStmts ctx block k stmts)
  | [] => .pure _
  | s :: rest =>
    .bind (names_resolveStmt ctx _ s) fun _ => names_resolveStmts ctx block (k + 1) rest

end

theorem names_resolveParams (method : Site) (k : Nat) (params : List ParamDecl) :
    Names (resolveParams method k params) := by
  induction params generalizing k with
  | nil => exact .pure _
  | cons p rest ih =>
    exact .bind (names_resolveType _ _) fun _ => .bind (names_enter _ _) fun _ => ih _

theorem names_resolveBody (method : Site) (k : Nat) (stmts : List Stmt) :
    Names (resolveBody ctx method k stmts) := by
  induction stmts generalizing k with
  | nil => exact .pure _
  | cons s rest ih => exact .bind (names_resolveStmt ctx _ s) fun _ => ih _

theorem names_resolveMethodDecl (cls : ClassRef) (site : Site) (m : MethodDecl) :
    Names (resolveMethodDecl cls site m) :=
  .bind (names_resolveType _ _) fun _ => .bind names_openScope fun _ =>
    .bind (names_resolveParams _ _ _) fun _ => .bind names_openScope fun _ =>
      .bind (names_resolveBody _ _ _ _) fun _ => .bind names_closeScope fun _ => names_closeScope

theorem names_resolveFields (cls : Site) (k : Nat) (fields : List FieldDecl) :
    Names (resolveFields cls k fields) := by
  induction fields generalizing k with
  | nil => exact .pure _
  | cons f rest ih => exact .bind (names_resolveType _ _) fun _ => ih _

theorem names_resolveClass (site : Site) (c : ClassDecl) : Names (resolveClass site c) := by
  refine .bind names_openScope fun _ => .bind (.forM fun d _ => ?_) fun _ =>
    .bind (names_resolveFields _ _ _) fun _ => .bind (.forM ?_) fun _ => names_closeScope
  · refine .bind names_table fun t => ?_
    split
    · exact .bind (names_enter _ _) fun _ => .pure _
    · exact .pure _
  · exact fun _ _ => names_resolveMethodDecl _ _ _

theorem names_resolve (p : Program) : Names (resolve p) :=
  .bind (names_collect p) fun _ => .bind names_table fun _ =>
    .forM fun _ _ => names_resolveClass _ _

end Resolving

namespace Typing

/-- A step of typing, which reports faults of types other than unresolved references. It stops at
an unresolved reference under one condition, and for other faults under another. -/
abbrev Types {α : Type} (unbound foreign : Prop) (x : Typing α) : Prop :=
  Plain (∃ f, · = Fault.typing f ∧ f ≠ .unresolved)
    (fun o => o = some (.typing .unresolved) ∧ unbound ∨
      foreign ∧ ∃ f, o = some (.typing f) ∧ f ≠ .unresolved) x

variable {unbound foreign : Prop} (ctx : Context)

theorem types_report {fault : TypeFault} (h : fault ≠ .unresolved) (pos : Nat) :
    Types unbound foreign (reportType fault pos) :=
  .report pos ⟨fault, rfl, h⟩

theorem types_fatal {α : Type} {fault : TypeFault} (h : fault ≠ .unresolved) (pos : Nat)
    (strange : foreign) : Types unbound foreign (Pass.fatal (.typing fault) pos : Typing α) :=
  .fatal pos (.inr ⟨strange, fault, rfl, h⟩)

theorem types_faulty {fault : TypeFault} (h : fault ≠ .unresolved) (pos : Nat) :
    Types unbound foreign (faulty fault pos) :=
  .bind (types_report h pos) fun _ => .pure _

theorem types_record (site : Site) (type : ValueType) : Types unbound foreign (record site type) :=
  .bind (.modifyOwn _) fun _ => .bind .getOwn fun _ => .pure _

theorem types_declOf {site : Site} (r : Reference) (h : ctx.bound site = none → unbound) :
    Types unbound foreign (declOf ctx site r) := by
  unfold declOf
  cases known : ctx.bound site with
  | some d => exact .pure d
  | none => exact .fatal _ (.inl ⟨rfl, h known⟩)

theorem types_checkValue {site : Site} (r : Reference) (h : ctx.bound site = none → unbound) :
    Types unbound foreign (checkValue ctx site r) := by
  refine .bind (types_declOf ctx r h) fun d => ?_
  split
  · exact .pure _
  · exact types_faulty (by simp) _
  · exact types_faulty (by simp) _
  · split
    · exact types_faulty (by simp) _
    · exact .pure _

theorem types_checkTarget {site : Site} (r : Reference) (h : ctx.bound site = none → unbound) :
    Types unbound foreign (checkTarget ctx site r) := by
  refine .bind (types_declOf ctx r h) fun d => ?_
  split
  · exact types_faulty (by simp) _
  · exact types_faulty (by simp) _
  · exact types_faulty (by simp) _
  · split
    · exact types_faulty (by simp) _
    · split
      · exact types_faulty (by simp) _
      · exact .pure _

theorem types_checkUnary {op : UnaryOp} (h : ¬ op.Written → foreign) (pos : Nat)
    (given : ValueType) : Types unbound foreign (checkUnary op pos given) := by
  unfold checkUnary
  split
  · split
    · exact .pure _
    · exact types_faulty (by simp) _
  · split
    · exact .pure _
    · exact types_faulty (by simp) _
  · exact types_fatal (by simp) _ (h id)

theorem types_checkBinary {op : BinaryOp} (h : ¬ op.Written → foreign) (pos : Nat)
    (left right : ValueType) : Types unbound foreign (checkBinary op pos left right) := by
  have onInts : ∀ result : BaseType, Types unbound foreign
      (if left.isBase .int && right.isBase .int then pure (.base result)
        else faulty (.intOperands op.text left right) pos) := by
    intro result
    split
    · exact .pure _
    · exact types_faulty (by simp) _
  unfold checkBinary
  cases op with
  | add | sub | mul | div => exact onInts .int
  | lt | le | gt | ge => exact onInts .boolean
  | eq | ne | and | or =>
    dsimp only
    split
    · exact .pure _
    · exact types_faulty (by simp) _
  | other text => exact types_fatal (by simp) _ (h id)

/-- A fault that is reported under a condition before a step goes on. -/
theorem types_unless {α : Type} {c : Prop} [Decidable c] {fault : TypeFault} {pos : Nat}
    {next : Unit → Typing α} (h : fault ≠ .unresolved)
    (after : ∀ u, Types unbound foreign (next u)) :
    Types unbound foreign (if c then reportType fault pos >>= next else next ()) := by
  split
  · exact .bind (types_report h pos) after
  · exact after ()

theorem types_matchArgs (method : String) (args : List (Nat × ValueType))
    (params : List (ParamDecl × ValueType)) :
    Types unbound foreign (matchArgs method args params) := by
  induction args generalizing params with
  | nil => exact .pure _
  | cons arg rest ih =>
    cases params with
    | nil => exact .pure _
    | cons p params =>
      unfold matchArgs
      exact types_unless (by simp) fun _ => ih params

theorem types_checkCall (d : Decl) (r : Reference) (pos : Nat) (args : List (Nat × ValueType)) :
    Types unbound foreign (checkCall ctx d r pos args) := by
  unfold checkCall
  split
  · split
    · exact types_faulty (by simp) _
    · exact .bind (types_matchArgs _ _ _) fun _ => .pure _
  · exact types_faulty (by simp) _

mutual

theorem types_checkExpr {names : Resolving.Context} {locals : Scope} {site : Site} (e : Expr)
    (h : ∀ u ∈ e.uses names locals site, ∀ l ∈ u.references, ctx.bound l.1 = none → unbound)
    (w : ¬ e.Written → foreign) : Types unbound foreign (checkExpr ctx site e) := by
  match e with
  | .int .. | .bool .. | .null .. => exact types_record _ _
  | .unknown kind pos => exact types_fatal (by simp) _ (w id)
  | .unary op operand pos =>
    exact .bind (types_checkExpr operand h fun n => w fun v => n v.2) fun given =>
      .bind (types_checkUnary (fun n => w fun v => n v.1) pos given) fun _ => types_record _ _
  | .binary op left right pos =>
    have ⟨hl, hr⟩ := List.forall_mem_append.mp h
    exact .bind (types_checkExpr left hl fun n => w fun v => n v.2.1) fun leftType =>
      .bind (types_checkExpr right hr fun n => w fun v => n v.2.2) fun rightType =>
        .bind (types_checkBinary (fun n => w fun v => n v.1) pos leftType rightType)
          fun _ => types_record _ _
  | .ref r pos =>
    exact .bind (types_checkValue ctx r (h _ List.mem_cons_self _ List.mem_cons_self)) fun _ =>
      types_record _ _
  | .index r index pos =>
    have ⟨hr, hi⟩ := List.forall_mem_cons.mp h
    refine .bind (types_checkValue ctx r (hr _ List.mem_cons_self)) fun type =>
      .bind (types_checkExpr index hi fun n => w fun v => n v.2) fun given =>
        types_unless (by simp) fun _ => ?_
    split
    · exact types_record _ _
    · exact types_record _ _
    · exact .bind (types_faulty (by simp) _) fun _ => types_record _ _
  | .call method args pos =>
    have ⟨hm, ha⟩ := List.forall_mem_cons.mp h
    exact .bind (types_declOf ctx method (hm _ List.mem_cons_self)) fun d =>
      .bind (types_checkArgs args ha fun n => w fun v => n v.2) fun types =>
        .bind (types_checkCall ctx d method pos types) fun _ => types_record _ _
  | .newObject type pos => exact types_record _ _
  | .newArray element size pos =>
    have ⟨_, hs⟩ := List.forall_mem_cons.mp h
    exact .bind (types_checkExpr size hs fun n => w fun v => n v.2) fun given =>
      types_unless (by simp)
      fun _ => types_record _ _

theorem types_checkArgs {names : Resolving.Context} {locals : Scope} {call : Site} {k : Nat}
    (args : List Expr) (h : ∀ u ∈ Expr.argUses names locals call k args, ∀ l ∈ u.references,
      ctx.bound l.1 = none → unbound) (w : ¬ Expr.AllWritten args → foreign) :
    Types unbound foreign (checkArgs ctx call k args) := by
  match args with
  | [] => exact .pure _
  | e :: rest =>
    have ⟨he, hr⟩ := List.forall_mem_append.mp h
    exact .bind (types_checkExpr e he fun n => w fun v => n v.1) fun _ =>
      .bind (types_checkArgs rest hr fun n => w fun v => n v.2) fun _ => .pure _

end

theorem types_checkCondition {names : Resolving.Context} {locals : Scope} {site : Site}
    (statement : String) (cond : Expr) (h : ∀ u ∈ cond.uses names locals site, ∀ l ∈ u.references,
      ctx.bound l.1 = none → unbound) (w : ¬ cond.Written → foreign) :
    Types unbound foreign (checkCondition ctx site statement cond) := by
  refine .bind (types_checkExpr ctx cond h w) fun given => ?_
  split
  · exact types_report (by simp) _
  · exact .pure _

theorem types_checkReturn (names : Resolving.Context) (locals : Scope) {site : Site} (pos : Nat)
    (value : Option Expr) (h : ∀ e ∈ value, ∀ u ∈ e.uses names locals site.value,
      ∀ l ∈ u.references, ctx.bound l.1 = none → unbound)
    (w : ∀ e ∈ value, ¬ e.Written → foreign) :
    Types unbound foreign (checkReturn ctx site pos value) := by
  cases value with
  | none =>
    rw [checkReturn]
    split
    · exact types_report (by simp) _
    · exact .pure _
  | some e =>
    refine .bind (types_checkExpr ctx e (h e rfl) (w e rfl)) fun given => ?_
    split
    · exact types_report (by simp) _
    · split
      · exact types_report (by simp) _
      · exact .pure _

theorem types_finish (site : Site) : Types unbound foreign (finish site) :=
  .bind (types_record _ _) fun _ => .pure _

mutual

theorem types_checkStmt {names : Resolving.Context} {locals : Scope} {site : Site} (s : Stmt)
    (h : ∀ u ∈ s.uses names locals site, ∀ l ∈ u.references, ctx.bound l.1 = none → unbound)
    (w : ¬ s.Written → foreign) : Types unbound foreign (checkStmt ctx site s) := by
  match s with
  | .unknown kind pos => exact types_fatal (by simp) _ (w id)
  | .block stmts pos => exact .bind (types_checkStmts stmts h w) fun _ => types_finish _
  | .declare var init pos =>
    have ⟨_, rest⟩ := List.forall_mem_cons.mp h
    have ⟨_, hi⟩ := List.forall_mem_cons.mp rest
    exact .bind (types_checkExpr ctx init hi fun n => w fun v => n v.2) fun given =>
      types_unless (by simp) fun _ => types_finish _
  | .assign target value pos =>
    have ⟨ht, hv⟩ := List.forall_mem_cons.mp h
    exact .bind (types_checkTarget ctx target (ht _ List.mem_cons_self)) fun expected =>
      .bind (types_checkExpr ctx value hv fun n => w fun v => n v.2) fun given =>
        types_unless (by simp) fun _ => types_finish _
  | .assignIndex target index value pos =>
    have ⟨ht, rest⟩ := List.forall_mem_cons.mp h
    have ⟨hi, hv⟩ := List.forall_mem_append.mp rest
    refine .bind (types_checkTarget ctx target (ht _ List.mem_cons_self)) fun type =>
      .bind (types_checkExpr ctx index hi fun n => w fun v => n v.2.1) fun indexType =>
        .bind (types_checkExpr ctx value hv fun n => w fun v => n v.2.2) fun given =>
          types_unless (by simp) fun _ => ?_
    dsimp only
    split
    · exact types_unless (by simp) fun _ => types_finish _
    · exact types_finish _
    · exact .bind (types_report (by simp) _) fun _ => types_finish _
  | .call method args pos =>
    have ⟨hm, ha⟩ := List.forall_mem_cons.mp h
    exact .bind (types_declOf ctx method (hm _ List.mem_cons_self)) fun d =>
      .bind (types_checkArgs ctx args ha fun n => w fun v => n v.2) fun types =>
        .bind (types_checkCall ctx d method pos types) fun _ => types_finish _
  | .ret none pos =>
    exact .bind (types_checkReturn ctx names locals pos none (by simp) (by simp)) fun _ =>
      types_finish _
  | .ret (some value) pos =>
    refine .bind (types_checkReturn ctx names locals pos (some value) ?_ ?_) fun _ => types_finish _
    · rintro e ⟨⟩
      exact h
    · rintro e ⟨⟩
      exact w
  | .ifThen cond body pos | .loop cond body pos =>
    have ⟨hc, rest⟩ := List.forall_mem_append.mp h
    have ⟨_, hb⟩ := List.forall_mem_cons.mp rest
    exact .bind (types_checkCondition ctx _ cond hc fun n => w fun v => n v.1) fun _ =>
      .bind (types_checkStmt body hb fun n => w fun v => n v.2) fun _ => types_finish _
  | .ifElse cond body other pos =>
    have ⟨hc, rest⟩ := List.forall_mem_append.mp h
    have ⟨_, rest⟩ := List.forall_mem_cons.mp rest
    have ⟨hb, rest⟩ := List.forall_mem_append.mp rest
    have ⟨_, ho⟩ := List.forall_mem_cons.mp rest
    exact .bind (types_checkCondition ctx _ cond hc fun n => w fun v => n v.1) fun _ =>
      .bind (types_checkStmt body hb fun n => w fun v => n v.2.1) fun _ =>
        .bind (types_checkStmt other ho fun n => w fun v => n v.2.2) fun _ => types_finish _

theorem types_checkStmts {names : Resolving.Context} {locals : Scope} {block : Site} {k : Nat}
    (stmts : List Stmt) (h : ∀ u ∈ Stmt.usesFrom names locals block.stmt k stmts,
      ∀ l ∈ u.references, ctx.bound l.1 = none → unbound) (w : ¬ Stmt.AllWritten stmts → foreign) :
    Types unbound foreign (checkStmts ctx block k stmts) := by
  match stmts with
  | [] => exact .pure _
  | s :: rest =>
    have ⟨hs, hr⟩ := List.forall_mem_append.mp h
    exact .bind (types_checkStmt s hs fun n => w fun v => n v.1) fun _ =>
      types_checkStmts rest hr fun n => w fun v => n v.2

end

theorem types_checkBody {names : Resolving.Context} {locals : Scope} {method : Site} {k : Nat}
    (stmts : List Stmt) (h : ∀ u ∈ Stmt.usesFrom names locals method.body k stmts,
      ∀ l ∈ u.references, ctx.bound l.1 = none → unbound) (w : ¬ Stmt.AllWritten stmts → foreign) :
    Types unbound foreign (checkBody ctx method k stmts) := by
  induction stmts generalizing locals k with
  | nil => exact .pure _
  | cons s rest ih =>
    have ⟨hs, hr⟩ := List.forall_mem_append.mp h
    exact .bind (types_checkStmt ctx s hs fun n => w fun v => n v.1) fun _ =>
      ih hr fun n => w fun v => n v.2

theorem types_check {bound : Site → Option Decl} {p : Program}
    (h : ∀ (k : Nat) c, p.classes[k]? = some c → ∀ u ∈ c.uses (.classAt k), ∀ l ∈ u.references,
      bound l.1 = none → unbound) (w : ¬ p.Written → foreign) :
    Types unbound foreign (check bound p) := by
  refine .forM ?_
  rintro ⟨site, m⟩ hm
  obtain ⟨k, c, hk, hs⟩ := Program.mem_sitedMethods.mp hm
  have body : ∀ u ∈ m.bodyUses (c.ref (.classAt k)) site, ∀ l ∈ u.references,
      bound l.1 = none → unbound := fun u hu => h k c hk u (ClassDecl.bodyUses_subset hs hu)
  refine types_checkBody _ m.body body fun n => w fun written => n ?_
  exact ((written c (List.mem_of_getElem? hk)).methods m
    (ClassDecl.mem_of_mem_sitedMethods hs)).body

end Typing

/-- A step of generation, which aborts with faults of code. -/
abbrev Codes {σ α : Type} (x : Pass σ α) : Prop :=
  Plain (∃ f, · = Fault.code f) (∀ fault ∈ ·, ∃ f, fault = Fault.code f) x

namespace Emission

theorem codes_place (site : Site) (location : Location) (name : String) (pos : Nat) :
    Codes (place site location name pos) := by
  refine .bind .getOwn fun p => ?_
  split
  · exact .fatal _ (by simp)
  · exact .modifyOwn _

theorem codes_emitted {α : Type} (bound : Site → Option Decl) (code : Env → Emitted α) :
    Codes (emitted bound code) := by
  refine .bind .getOwn fun p => ?_
  split
  · exact .pure _
  · exact .fatal _ (by simp)
  · exact .missing (by simp)

mutual

theorem codes_emitStmt (ctx : Context) (base slot : Nat) (site : Site) :
    ∀ s : Stmt, Codes (emitStmt ctx base slot site s)
  | .block stmts _ => .bind (codes_emitStmts ctx base slot site 0 stmts) fun _ => .pure _
  | .declare _ _ _ =>
    .bind (codes_place _ _ _ _) fun _ => .bind (codes_emitted _ _) fun _ => .pure _
  | .assign _ _ _ | .assignIndex _ _ _ _ | .call _ _ _ | .ret (some _) _ =>
    .bind (codes_emitted _ _) fun _ => .pure _
  | .ret none _ => .pure _
  | .ifThen _ body _ =>
    .bind (codes_emitted _ _) fun _ => .bind (codes_emitStmt ctx _ _ _ body) fun _ => .pure _
  | .ifElse _ body other _ =>
    .bind (codes_emitted _ _) fun _ => .bind (codes_emitStmt ctx _ _ _ body) fun _ =>
      .bind (codes_emitStmt ctx _ _ _ other) fun _ => .pure _
  | .loop _ body _ =>
    .bind (codes_emitStmt ctx _ _ _ body) fun _ => .bind (codes_emitted _ _) fun _ => .pure _
  | .unknown _ pos => .fatal pos (by simp)

theorem codes_emitStmts (ctx : Context) (base slot : Nat) (block : Site) (k : Nat) :
    ∀ stmts : List Stmt, Codes (emitStmts ctx base slot block k stmts)
  | [] => .pure _
  | s :: rest =>
    .bind (codes_emitStmt ctx base slot _ s) fun _ =>
      .bind (codes_emitStmts ctx _ _ block (k + 1) rest) fun _ => .pure _

end

theorem codes_emitBody (ctx : Context) (base slot : Nat) (method : Site) (k : Nat)
    (stmts : List Stmt) : Codes (emitBody ctx base slot method k stmts) := by
  induction stmts generalizing base slot k with
  | nil => exact .pure _
  | cons s rest ih =>
    exact .bind (codes_emitStmt ctx base slot _ s) fun _ => .bind (ih _ _ _) fun _ => .pure _

theorem codes_placeParams (method : Site) (arity k : Nat) (params : List ParamDecl) :
    Codes (placeParams method arity k params) := by
  induction params generalizing k with
  | nil => exact .pure _
  | cons p rest ih => exact .bind (codes_place _ _ _ _) fun _ => ih _

theorem codes_emitMethods (bound : Site → Option Decl) (base : Nat)
    (methods : List (Site × MethodDecl)) : Codes (emitMethods bound base methods) := by
  induction methods generalizing base with
  | nil => exact .pure _
  | cons m rest ih =>
    refine .bind (.bind (codes_placeParams _ _ _ _) fun _ => .bind (codes_place _ _ _ _) fun _ =>
      codes_emitBody _ _ _ _ _ _) fun _ => .bind (ih _) fun _ => .pure _

end Emission

namespace Generation

/-- A step that only places things is a step on a part of the state. -/
theorem placing_eq {α : Type} (step : Emission.Emitting α) :
    placing step = within State.placing (fun s p => { s with placing := p }) step := by
  funext w
  change EStateM.run (placing step) w = EStateM.run (within _ _ step) w
  rw [placing, EStateM.run_bind, EStateM.run_get, run_within]
  simp only [Pass.run]
  cases EStateM.run step ⟨w.log, w.own.placing⟩ <;> rfl

theorem codes_placing {α : Type} {step : Emission.Emitting α} (h : Codes step) :
    Codes (placing step) :=
  placing_eq step ▸ .within _ _ h

theorem codes_placeFields (cls : Site) (k statics instances : Nat) (fields : List FieldDecl) :
    Codes (placeFields cls k statics instances fields) := by
  induction fields generalizing k statics instances with
  | nil => exact .pure _
  | cons f rest ih =>
    unfold placeFields
    split
    · exact .bind (Emission.codes_place _ _ _ _) fun _ => ih _ _ _
    · exact .bind (Emission.codes_place _ _ _ _) fun _ => ih _ _ _

theorem codes_placeClasses (number statics : Nat) (classes : List ClassDecl) :
    Codes (placeClasses number statics classes) := by
  induction classes generalizing number statics with
  | nil => exact .pure _
  | cons c rest ih =>
    exact .bind (codes_placeFields _ _ _ _ _) fun _ => .bind (.modifyOwn _) fun _ => ih _ _

theorem codes_addReturns : Codes addReturns := by
  refine .bind .getOwn fun s => ?_
  dsimp only
  refine .bind (.modifyOwn _) fun _ => ?_
  split
  · exact .fatal _ (by simp)
  · exact .pure _

theorem codes_addressOf (method : Decl) : Codes (addressOf method) := by
  refine .bind .getOwn fun s => ?_
  dsimp only
  split
  · exact .pure _
  · exact .fatal _ (by simp)

theorem codes_link (code : Code) : Codes (link code) := by
  induction code with
  | nil => exact .pure _
  | cons item rest ih =>
    cases item with
    | instr i => exact .bind ih fun _ => .pure _
    | call receiver method => exact .bind (codes_addressOf _) fun _ => .bind ih fun _ => .pure _

theorem codes_generate (bound : Site → Option Decl) : Codes (generate bound) := by
  refine .bind .getOwn fun s => .bind (codes_placing (codes_placeClasses _ _ _)) fun size => ?_
  split
  · exact .fatal _ (by simp)
  · exact .bind codes_addReturns fun _ => .bind .getOwn fun _ =>
      .bind (codes_placing (Emission.codes_emitMethods _ _ _)) fun _ =>
        .bind (codes_addressOf _) fun _ => .bind (codes_link _) fun _ => .pure _

end Generation

namespace Compilation

variable {c c' : Compilation}

theorem run_of_resolve {t : ScopeTable} {answer : Except Stop Unit}
    (resolved : c.resolve = (c', t, answer)) :
    ∃ w, (Resolving.resolve c.program).run c.log { bindings := c.bindings } = (w, answer) ∧
      t = w.own.table ∧ c' = { c with log := w.log, bindings := w.own.bindings } := by
  unfold resolve runResolving at resolved
  cases run : (Resolving.resolve c.program).run c.log { bindings := c.bindings } with
  | mk w answer' =>
    rw [run] at resolved
    cases resolved
    exact ⟨w, rfl, rfl, rfl⟩

theorem run_of_check {answer : Except Stop Unit} (checked : c.check = (c', answer)) :
    ∃ w, (Typing.check c.bindings.get? c.program).run c.log c.types = (w, answer) ∧
      c' = { c with log := w.log, types := w.own } := by
  unfold check at checked
  cases run : (Typing.check c.bindings.get? c.program).run c.log c.types with
  | mk w answer' =>
    rw [run] at checked
    cases checked
    exact ⟨w, rfl, rfl⟩

theorem run_of_generate {answer : Except Stop ObjectCode} (generated : c.generate = (c', answer)) :
    ∃ w, (Generation.generate c.bindings.get?).run c.log ⟨c.program, ⟨c.locations, c.layouts⟩⟩ =
      (w, answer) ∧
      c' = { c with
        program := w.own.program
        log := w.log
        locations := w.own.placing.locations
        layouts := w.own.placing.layouts } := by
  unfold generate at generated
  dsimp only at generated
  cases run : (Generation.generate c.bindings.get?).run c.log
    ⟨c.program, ⟨c.locations, c.layouts⟩⟩ with
  | mk w answer' =>
    rw [run] at generated
    cases generated
    exact ⟨w, rfl, rfl⟩

end Compilation

end JamCompiler

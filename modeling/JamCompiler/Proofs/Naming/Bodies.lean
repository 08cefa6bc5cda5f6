import JamCompiler.Proofs.Naming.References

/-!
# Resolving bodies

Resolution of expressions, statements, parameters and methods, each step in terms of its uses. The
induction is on the tree. What is carried along a list of statements is `InMethod`: the table holds
exactly the locals in force, and the declaration of a variable puts it there once its type is
bound.
-/

namespace JamCompiler

open Pass

/-- A written type whose names are bound to what they mean stands for what is written. -/
theorem TypeExpr.view_of_bound {g : Globals} {bound : Site → Option Decl} {site : Site}
    {t : TypeExpr} (h : (Use.type site t).Bound g bound) :
    t.view bound site = t.typeIn g.classes := by
  induction t generalizing site with
  | base | unknown => rfl
  | named name pos =>
    have name := h (site.className, name.spelling) (List.mem_singleton_self _)
    simp only [view, typeIn, name]
    cases g.classes _ <;> rfl
  | array element pos ih =>
    have inner : element.view bound site.element = element.typeIn g.classes := ih h
    simp only [view, typeIn, inner]

/-- The state of resolution inside a method: the table holds the locals in force, and beyond them
names mean members of the class and classes. -/
structure InMethod (g : Globals) (ctx : Resolving.Context) (locals : Scope) (n : Naming)
    (region : Region) : Prop extends Models g ctx locals n region where
  inside : 3 ≤ n.table.level
  locals : n.table.locals = locals
  outer : ∀ name, n.table.outer? name =
    (g.members ctx.cls.name name).or ((g.classes name).map .cls)

namespace InMethod

variable {g : Globals} {ctx : Resolving.Context} {locals : Scope} {n n' : Naming}
variable {a b region : Region} {uses : List Use}

theorem down (h : InMethod g ctx locals n b) (sub : a.Sub b) : InMethod g ctx locals n a :=
  { h with toModels := h.toModels.down sub }

theorem after (h : InMethod g ctx locals n region) (settled : Settles g uses a n n')
    (ha : a.Sub region) (hb : b.Sub region) (apart : a.Apart b) : InMethod g ctx locals n' b where
  toModels := h.toModels.after settled ha hb apart
  inside := settled.table ▸ h.inside
  locals := settled.table ▸ h.locals
  outer := settled.table ▸ h.outer

theorem seq {α β : Type} {x : Resolving α} {y : Resolving β} {us vs : List Use}
    (h : InMethod g ctx locals n region)
    (first : InMethod g ctx locals n a → Resolves g x us a n)
    (next : ∀ n', InMethod g ctx locals n' b → Resolves g y vs b n')
    (apart : a.Apart b) (ha : a.Sub region) (hb : b.Sub region) :
    Resolves g (x >>= fun _ => y) (us ++ vs) region n :=
  Resolves.seq (first (h.down ha)) (fun _ n' settled => next n' (h.after settled ha hb apart))
    apart ha hb

theorem openScope (h : InMethod g ctx locals n region) :
    InMethod g ctx locals { n with table := n.table.openScope } region where
  lookup := h.lookup
  classes := h.classes
  members := h.members
  typeOf := h.typeOf
  apart := h.apart
  free := h.free
  inside := by
    rw [ScopeTable.level_openScope]
    exact Nat.le_succ_of_le h.inside
  locals := (ScopeTable.locals_openScope (Nat.le_of_succ_le h.inside)).trans h.locals
  outer := by
    rw [ScopeTable.outer?_openScope (Nat.le_of_succ_le h.inside)]
    exact h.outer

/-- The state after the declaration of a parameter or variable whose type is known. -/
theorem declare (h : InMethod g ctx locals n region) {d : Decl} {s : Site}
    (home : d.home = .user s) (type : d.type n.bindings.get? = g.typeOf d) (sub : a.Sub region)
    (apart : s.below.Apart a) :
    InMethod g ctx ((d.name, d) :: locals) { n with table := n.table.push d } a := by
  have lookup : ∀ name, (n.table.push d).retrieve? name =
      g.lookup ctx ((d.name, d) :: locals) name := by
    intro name
    rw [ScopeTable.retrieve?_eq, ScopeTable.locals_push h.inside, ScopeTable.outer?_push h.inside,
      h.locals, h.outer]
    rfl
  have owners : ∀ e, g.Owner ((d.name, d) :: locals) e → e = d ∨ g.Owner locals e := by
    rintro e ⟨data, ⟨name, found⟩ | other⟩
    · rw [List.lookup_cons] at found
      split at found
      · cases found
        exact .inl rfl
      · exact .inr ⟨data, .inl ⟨name, found⟩⟩
    · exact .inr ⟨data, .inr other⟩
  have registries : (n.table.push d).classes = n.table.classes ∧
      (n.table.push d).members = n.table.members :=
    ⟨(ScopeTable.sameAround_push h.inside).classes, (ScopeTable.sameAround_push h.inside).members⟩
  refine ⟨⟨lookup, ?_, ?_, ?_, ?_, h.free.down sub⟩, ?_, ?_, ?_⟩
  · intro name
    rw [← h.classes, ScopeTable.retrieveClass?, registries.1]
    rfl
  · intro c name
    rw [← h.members, ScopeTable.retrieveMember?, registries.2]
    rfl
  · intro e he
    rcases owners e he with rfl | he
    · exact type
    · exact h.typeOf e he
  · intro e he s' hs'
    rcases owners e he with rfl | he
    · rw [home] at hs'
      cases hs'
      exact apart
    · exact (h.apart e he s' hs').mono (.refl _) sub
  · exact ScopeTable.level_push.symm ▸ h.inside
  · exact (ScopeTable.locals_push h.inside).trans (by rw [h.locals])
  · rw [ScopeTable.outer?_push h.inside]
    exact h.outer

/-- What a name means inside a method does not hang on the variable that is initialized. -/
theorem initializing (h : Models g ctx locals n region) (d : Option Decl) :
    Models g { ctx with initializing := d } locals n region :=
  ⟨h.lookup, h.classes, h.members, h.typeOf, h.apart, h.free⟩

end InMethod

namespace Resolving

variable {g : Globals} {ctx : Context} {locals : Scope} {n : Naming} {site : Site}

mutual

theorem resolveExpr_resolves (e : Expr) {ctx : Context} {locals : Scope} {n : Naming} {site : Site}
    (models : Models g ctx locals n site.below) :
    Resolves g (resolveExpr ctx site e) (e.uses ctx locals site) site.below n := by
  match e with
  | .int .. | .bool .. | .null .. => exact Resolves.nil
  | .unknown kind pos => exact Decides.error ⟨_, _, rfl⟩ (by simp [Expr.uses, Use.Ok])
  | .unary op operand pos =>
    exact (resolveExpr_resolves operand (models.down (site.child_sub 0))).up (site.child_sub 0)
  | .binary op left right pos =>
    exact models.seq (resolveExpr_resolves left) (fun _ => resolveExpr_resolves right)
      (Site.children_apart (by decide)) (site.child_sub 0) (site.child_sub 1)
  | .ref r pos =>
    exact (Resolves.seq (resolveRef_resolves (models.down (site.child_sub 0)) r)
      (fun _ _ _ => Resolves.nil) (Region.empty_apart _).symm (site.child_sub 0)
      (Region.empty_sub _))
  | .index r index pos =>
    exact models.seq (resolveRef_resolves · r) (fun _ => resolveExpr_resolves index)
      (Site.children_apart (by decide)) (site.child_sub 0) (site.child_sub 1)
  | .call method args pos =>
    exact models.seq (resolveMethod_resolves · method) (fun _ => resolveArgs_resolves args)
      (Site.child_apart_items (by decide)) (site.child_sub 0) (site.itemsFrom_sub 1 0)
  | .newObject type pos =>
    exact (resolveType_resolves models.classes (models.free.down (site.child_sub 0)) type).up
      (site.child_sub 0)
  | .newArray element size pos =>
    exact models.seq (fun here => resolveType_resolves here.classes here.free element)
      (fun _ => resolveExpr_resolves size) (Site.children_apart (by decide)) (site.child_sub 0)
      (site.child_sub 1)

theorem resolveArgs_resolves (args : List Expr) {ctx : Context} {locals : Scope} {n : Naming}
    {call : Site} {k : Nat} (models : Models g ctx locals n (call.itemsFrom 1 k)) :
    Resolves g (resolveArgs ctx call k args) (Expr.argUses ctx locals call k args)
      (call.itemsFrom 1 k) n := by
  match args with
  | [] => exact Resolves.nil
  | e :: rest =>
    exact models.seq (resolveExpr_resolves e) (fun _ => resolveArgs_resolves rest)
      (call.item_apart_rest 1 k) (call.item_sub_itemsFrom 1 k) (call.itemsFrom_succ_sub 1 k)

end

theorem enter_leads {region : Region} (h : InMethod g ctx locals n region) (d : Decl) (pos : Nat) :
    Leads g (enter d pos) [.declare locals d.name] Region.empty n (n.table.push d) := by
  by_cases free : locals.lookup d.name = none
  · have entered := ScopeTable.enter?_of_free h.inside (d := d) (h.locals ▸ free)
    refine Decides.ok true { n with table := n.table.push d } (run_enter_ok entered pos)
      (by simpa only [List.mem_singleton, forall_eq, Use.Ok]) ?_
    exact ⟨rfl, .refl _ _, by simp [Use.Within], by simp [Use.Bound]⟩
  · obtain ⟨fault, taken⟩ := ScopeTable.enter?_of_taken h.inside (d := d) (h.locals ▸ free)
    refine Decides.error ?_ (by simpa only [List.mem_singleton, forall_eq, Use.Ok])
    rw [run_enter_error taken]
    exact (Answers.report _ _ n).bind_none

theorem rejectDeclaration_decides (branch : Stmt) :
    Decides (rejectDeclaration branch) n (branch.isDeclaration = false) fun _ n' => n' = n := by
  unfold rejectDeclaration
  cases lone : branch.isDeclaration with
  | true => exact Decides.error ⟨_, _, run_reportName _ _ _⟩ (by simp)
  | false => exact Decides.ok () n rfl rfl rfl

end Resolving

/-- The table after a statement. -/
def Stmt.tableAfter (t : ScopeTable) (site : Site) : Stmt → ScopeTable
  | declare var _ _ => t.push (.var site.var var)
  | _ => t

theorem Stmt.tableAfter_of_not_declaration {s : Stmt} (h : s.isDeclaration = false)
    (t : ScopeTable) (site : Site) : s.tableAfter t site = t := by
  cases s <;> first | rfl | cases h

theorem Stmt.sameAround_tableAfter {t : ScopeTable} (inside : 3 ≤ t.level) (s : Stmt)
    (site : Site) : t.SameAround (s.tableAfter t site) := by
  have same : t.SameAround t := by
    obtain ⟨scope, outer, inner⟩ := ScopeTable.level_ne_zero inside
    exact ⟨rfl, by simp [inner], rfl, rfl, rfl⟩
  cases s <;> first | exact same | exact ScopeTable.sameAround_push inside

/-- The state after a statement, ready for the statements that follow. -/
theorem InMethod.afterStmt {g : Globals} (regular : g.Regular) {ctx : Resolving.Context}
    {locals : Scope} {n n' : Naming} {site : Site} {rest region : Region} {s : Stmt}
    (h : InMethod g ctx locals n region)
    (settled : Settles g (s.uses ctx locals site) site.below
      { n with table := s.tableAfter n.table site } n')
    (ha : site.below.Sub region) (hb : rest.Sub region) (apart : site.below.Apart rest) :
    InMethod g ctx (s.localsAfter locals site) n' rest := by
  have table := settled.table
  have before := h.after (settled.retable n.table) ha hb apart
  obtain ⟨after, bindings⟩ := n'
  cases table
  cases s with
  | declare var init pos =>
    have written : Use.type site.var.type var.type ∈
        (Stmt.declare var init pos).uses ctx locals site := by simp [Stmt.uses]
    refine InMethod.declare before (d := .var site.var var) rfl ?_ (.refl _)
      (apart.mono (site.child_sub 0) (.refl _))
    exact (TypeExpr.view_of_bound (settled.bound _ written)).trans (regular.var _ _).symm
  | block | assign | assignIndex | call | ret | ifThen | ifElse | loop | unknown => exact before

namespace Resolving

variable {g : Globals} {ctx : Context} {locals : Scope} {n : Naming} {site : Site}

/-- A list of statements ends exactly if its uses are without fault, and has changed at most the
innermost scope. -/
abbrev LeadsAround (g : Globals) (x : Resolving Unit) (uses : List Use) (region : Region)
    (n : Naming) : Prop :=
  Decides x n (∀ u ∈ uses, u.Ok g) fun _ n' =>
    ∃ t, n.table.SameAround t ∧ Settles g uses region { n with table := t } n'

theorem LeadsAround.cons {us vs : List Use} {a b region : Region} {x y : Resolving Unit}
    {t : ScopeTable} (first : Leads g x us a n t) (around : n.table.SameAround t)
    (next : (∀ u ∈ us, u.Ok g) → ∀ n', Settles g us a { n with table := t } n' →
      LeadsAround g y vs b n')
    (apart : a.Apart b) (ha : a.Sub region) (hb : b.Sub region) :
    LeadsAround g (x >>= fun _ => y) (us ++ vs) region n := by
  have both := first.bind
    (Q := fun _ n'' => ∃ u, n.table.SameAround u ∧
      Settles g (us ++ vs) region { n with table := u } n'')
    fun ok _ n' settled => (next ok n' settled).mono fun _ _ _ ⟨u, around', settled'⟩ => by
      rw [settled.table] at around'
      exact ⟨u, around.trans around', (settled.retable u).append settled' apart ha hb⟩
  refine both.congr ?_
  simp only [List.mem_append, or_imp, forall_and]

theorem LeadsAround.nil (inside : 3 ≤ n.table.level) (region : Region) :
    LeadsAround g (pure ()) [] region n := by
  obtain ⟨scope, outer, inner⟩ := ScopeTable.level_ne_zero inside
  exact Decides.ok () n rfl (by simp) ⟨n.table, ⟨rfl, by simp [inner], rfl, rfl, rfl⟩,
    Settles.nil g region n⟩

/-- A list in a scope of its own, which is closed after it. -/
theorem scoped_resolves {x : Resolving Unit} {uses : List Use} {region : Region}
    (inner : LeadsAround g x uses region { n with table := n.table.openScope }) :
    Resolves g (do openScope; x; closeScope) uses region n := by
  have first : Decides openScope n True
      fun _ n' => n' = { n with table := n.table.openScope } := Decides.ok () _ rfl trivial rfl
  have both := first.bind (f := fun _ => do x; closeScope) (d := ∀ u ∈ uses, u.Ok g)
    (Q := fun _ n' => Settles g uses region n n') ?_
  · exact both.congr (by simp)
  · rintro - - n' rfl
    refine inner.before (Q := fun _ n' => Settles g uses region n n') ?_
    rintro - - n'' ⟨t, around, settled⟩
    have closed : n''.table.closeScope? = .ok n.table := by
      rw [settled.table]
      exact ScopeTable.closeScope?_of_sameAround around
    exact Decides.ok () _ (run_closeScope closed) trivial (settled.retable n.table)

/-- A branch that is no declaration leaves the table as it is. -/
theorem branch_resolves {body : Stmt} {uses : List Use}
    (inner : Leads g (resolveStmt ctx site body) uses site.below n (body.tableAfter n.table site)) :
    Resolves g (do rejectDeclaration body; resolveStmt ctx site body) (.branch body :: uses)
      site.below n := by
  have both := (rejectDeclaration_decides (n := n) body).bind
    (f := fun _ => resolveStmt ctx site body) (d := ∀ u ∈ uses, u.Ok g)
    (Q := fun _ n' => Settles g (.branch body :: uses) site.below n n') ?_
  · exact both.congr (by simp [Use.Ok])
  · rintro accepted - n' rfl
    rw [Stmt.tableAfter_of_not_declaration accepted] at inner
    refine inner.mono fun _ _ _ settled => ⟨settled.table, settled.grown, ?_, ?_⟩
    · exact List.forall_mem_cons.mpr ⟨trivial, settled.within⟩
    · exact List.forall_mem_cons.mpr ⟨trivial, settled.bound⟩

mutual

theorem resolveStmt_leads (regular : g.Regular) (s : Stmt) {ctx : Context} {locals : Scope}
    {n : Naming} {site : Site} (state : InMethod g ctx locals n site.below) :
    Leads g (resolveStmt ctx site s) (s.uses ctx locals site) site.below n
      (s.tableAfter n.table site) := by
  have models := state.toModels
  have branches : ∀ {k l : Nat}, k ≠ l → (site.child k).below.Apart (site.child l).below :=
    fun h => Site.children_apart h
  match s with
  | .unknown kind pos => exact Decides.error ⟨_, _, rfl⟩ (by simp [Stmt.uses, Use.Ok])
  | .block stmts pos =>
    have opened := state.openScope.down (site.itemsFrom_sub 0 0)
    exact (scoped_resolves (resolveStmts_leads regular stmts opened)).up (site.itemsFrom_sub 0 0)
  | .declare var init pos =>
    have typeSub : site.var.type.below.Sub site.below :=
      (site.var.child_sub 0).trans (site.child_sub 0)
    have apart : site.var.below.Apart site.init.below := branches (by decide)
    have typeApart : site.var.type.below.Apart site.init.below :=
      apart.mono (site.var.child_sub 0) (.refl _)
    have type := resolveType_resolves models.classes (models.free.down typeSub) var.type
    refine Leads.seq type ?_ typeApart typeSub (site.child_sub 1)
    intro _ n' settled
    have typed := state.after settled typeSub (site.child_sub 1) typeApart
    refine Leads.seq (enter_leads typed (.var site.var var) var.pos) ?_
      (Region.empty_apart _) (Region.empty_sub _) (.refl _)
    intro _ n'' entered
    have known : (Decl.var site.var var).type n'.bindings.get? = g.typeOf (.var site.var var) :=
      (TypeExpr.view_of_bound (settled.bound _ (List.mem_singleton_self _))).trans
        (regular.var _ _).symm
    have declared := typed.declare (d := .var site.var var) rfl known (.refl _) apart
    have state' : InMethod g ctx _ n'' _ :=
      declared.after entered (Region.empty_sub _) (.refl _) (Region.empty_apart _)
    have inner := resolveExpr_resolves init
      (InMethod.initializing state'.toModels (some (.var site.var var)))
    have table : n''.table = n.table.push (.var site.var var) := by
      rw [entered.table, settled.table]
    rw [Resolves, table] at inner
    exact inner
  | .assign target value pos =>
    exact models.seq (resolveRef_resolves · target) (fun _ => resolveExpr_resolves value)
      (branches (by decide)) (site.child_sub 0) (site.child_sub 2)
  | .assignIndex target index value pos =>
    have apart : site.target.below.Apart (site.index.below.union site.value.below) :=
      Region.apart_union (branches (by decide)) (branches (by decide))
    have both : (site.index.below.union site.value.below).Sub site.below :=
      Region.union_sub (site.child_sub 1) (site.child_sub 2)
    refine models.seq (resolveRef_resolves · target)
      (fun _ later => ?_) apart (site.child_sub 0) both
    exact later.seq (resolveExpr_resolves index) (fun _ => resolveExpr_resolves value)
      (branches (by decide)) (Region.sub_union_left _ _) (Region.sub_union_right _ _)
  | .call method args pos =>
    exact models.seq (resolveMethod_resolves · method) (fun _ => resolveArgs_resolves args)
      (Site.child_apart_items (by decide)) (site.child_sub 0) (site.itemsFrom_sub 1 0)
  | .ret none pos => exact Resolves.nil
  | .ret (some value) pos =>
    exact (resolveExpr_resolves value (models.down (site.child_sub 2))).up (site.child_sub 2)
  | .ifThen cond body pos | .loop cond body pos =>
    exact state.seq (resolveExpr_resolves cond ·.toModels)
      (fun _ later => branch_resolves (resolveStmt_leads regular body later))
      (branches (by decide)) (site.child_sub 0) (site.child_sub 1)
  | .ifElse cond body other pos =>
    have apart : site.cond.below.Apart (site.thenBranch.below.union site.elseBranch.below) :=
      Region.apart_union (branches (by decide)) (branches (by decide))
    have both : (site.thenBranch.below.union site.elseBranch.below).Sub site.below :=
      Region.union_sub (site.child_sub 1) (site.child_sub 2)
    refine state.seq (resolveExpr_resolves cond ·.toModels) (fun _ later => ?_) apart
      (site.child_sub 0) both
    rw [← bind_assoc]
    exact later.seq (fun here => branch_resolves (resolveStmt_leads regular body here))
      (fun _ last => branch_resolves (resolveStmt_leads regular other last))
      (branches (by decide)) (Region.sub_union_left _ _) (Region.sub_union_right _ _)

theorem resolveStmts_leads (regular : g.Regular) (stmts : List Stmt) {ctx : Context}
    {locals : Scope} {n : Naming} {block : Site} {k : Nat}
    (state : InMethod g ctx locals n (block.itemsFrom 0 k)) :
    LeadsAround g (resolveStmts ctx block k stmts) (Stmt.usesFrom ctx locals block.stmt k stmts)
      (block.itemsFrom 0 k) n := by
  match stmts with
  | [] => exact LeadsAround.nil state.inside _
  | s :: rest =>
    have apart := block.item_apart_rest 0 k
    have item : (block.stmt k).below.Sub (block.itemsFrom 0 k) := block.item_sub_itemsFrom 0 k
    refine LeadsAround.cons (resolveStmt_leads regular s (state.down item))
      (s.sameAround_tableAfter state.inside _) ?_ apart item (block.itemsFrom_succ_sub 0 k)
    intro _ n' settled
    exact resolveStmts_leads regular rest
      (state.afterStmt regular settled item (block.itemsFrom_succ_sub 0 k) apart)

end

end Resolving

end JamCompiler

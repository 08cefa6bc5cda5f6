import JamCompiler.Proofs.Naming.Bodies

/-!
# Resolving methods

The bodies and parameters of methods, and whole methods. A method is resolved in the state that its
class leaves, `InClass`: no locals are in force, and a name by itself means a member or a class.
-/

namespace JamCompiler

open Pass

namespace Resolving

variable {g : Globals} {ctx : Context} {locals : Scope} {n : Naming}

theorem resolveBody_leads (regular : g.Regular) (stmts : List Stmt) {method : Site} {k : Nat}
    (state : InMethod g ctx locals n (method.itemsFrom 2 k)) :
    LeadsAround g (resolveBody ctx method k stmts) (Stmt.usesFrom ctx locals method.body k stmts)
      (method.itemsFrom 2 k) n := by
  induction stmts generalizing locals n k with
  | nil => exact LeadsAround.nil state.inside _
  | cons s rest ih =>
    have apart := method.item_apart_rest 2 k
    have item : (method.body k).below.Sub (method.itemsFrom 2 k) := method.item_sub_itemsFrom 2 k
    refine LeadsAround.cons (resolveStmt_leads regular s (state.down item))
      (s.sameAround_tableAfter state.inside _) ?_ apart item (method.itemsFrom_succ_sub 2 k)
    intro _ n' settled
    exact ih (state.afterStmt regular settled item (method.itemsFrom_succ_sub 2 k) apart)

/-- Parameters are declared one after the other; what follows them finds them in force. -/
theorem resolveParams_leads (regular : g.Regular) (params : List ParamDecl) {method : Site}
    {k : Nat} {after : Region} (apart : (method.itemsFrom 1 k).Apart after)
    (state : InMethod g ctx locals n ((method.itemsFrom 1 k).union after)) :
    Decides (resolveParams method k params) n
      (∀ u ∈ MethodDecl.paramUses method k locals params, u.Ok g) fun _ n' =>
        (∃ t, n.table.SameAround t ∧ Settles g (MethodDecl.paramUses method k locals params)
          (method.itemsFrom 1 k) { n with table := t } n') ∧
        InMethod g ctx (MethodDecl.paramScope method k locals params) n' after := by
  induction params generalizing locals n k with
  | nil =>
    obtain ⟨scope, outer, inner⟩ := ScopeTable.level_ne_zero state.inside
    refine Decides.ok () n rfl (by simp [MethodDecl.paramUses]) ⟨⟨n.table, ?_, ?_⟩, ?_⟩
    · exact ⟨rfl, by simp [inner], rfl, rfl, rfl⟩
    · exact Settles.nil g _ n
    · exact state.down (Region.sub_union_right _ _)
  | cons p rest ih =>
    have item : (method.param k).below.Sub (method.itemsFrom 1 k) := method.item_sub_itemsFrom 1 k
    have succ := method.itemsFrom_succ_sub 1 k
    have left := Region.sub_union_left (method.itemsFrom 1 k) after
    have remaining : ((method.itemsFrom 1 (k + 1)).union after).Sub
        ((method.itemsFrom 1 k).union after) :=
      Region.union_sub (succ.trans left) (Region.sub_union_right _ _)
    have homeApart : (method.param k).below.Apart ((method.itemsFrom 1 (k + 1)).union after) :=
      Region.apart_union (method.item_apart_rest 1 k) (apart.mono item (.refl _))
    have typeSub : (method.param k).type.below.Sub (method.param k).below :=
      (method.param k).child_sub 0
    have typeApart := homeApart.mono typeSub (.refl _)
    have typeIn := (typeSub.trans item).trans left
    let d := Decl.param (method.param k) p
    have type := resolveType_resolves state.classes (state.free.down typeIn) p.type
    have both := type.bind
      (f := fun _ => do let _ ← enter d p.pos; resolveParams method (k + 1) rest)
      (d := (∀ u ∈ [Use.declare locals p.name], u.Ok g) ∧
        ∀ u ∈ MethodDecl.paramUses method (k + 1) ((p.name, d) :: locals) rest, u.Ok g)
      (Q := fun _ n' => (∃ t, n.table.SameAround t ∧
          Settles g (MethodDecl.paramUses method k locals (p :: rest))
            (method.itemsFrom 1 k) { n with table := t } n') ∧
        InMethod g ctx (MethodDecl.paramScope method k locals (p :: rest)) n' after) ?_
    · refine both.congr ?_
      simp only [MethodDecl.paramUses, List.mem_cons, forall_eq_or_imp, List.not_mem_nil,
        false_imp_iff, implies_true, and_true, d]
    · intro _ _ n₁ settled
      have typed := state.after settled typeIn remaining typeApart
      have known : d.type n₁.bindings.get? = g.typeOf d :=
        (TypeExpr.view_of_bound (settled.bound _ (List.mem_singleton_self _))).trans
          (regular.param _ _).symm
      have declared := typed.declare (d := d) rfl known (.refl _) homeApart
      refine (enter_leads typed d p.pos).bind ?_
      intro _ _ n₂ entered
      have state' : InMethod g _ _ n₂ _ :=
        declared.after entered (Region.empty_sub _) (.refl _) (Region.empty_apart _)
      refine (ih (apart.mono succ (.refl _)) state').mono ?_
      rintro - _ n' ⟨⟨t, around, settled'⟩, last⟩
      refine ⟨⟨t, ?_, ?_⟩, last⟩
      · rw [entered.table] at around
        have pushed := ScopeTable.sameAround_push (d := d) typed.inside
        rw [settled.table] at pushed around
        exact pushed.trans around
      · have inner := (entered.retable t).append settled' (Region.empty_apart _)
          (Region.empty_sub _) (.refl _)
        exact (settled.retable t).append inner (typeApart.mono (.refl _) fun _ => .inl)
          (typeSub.trans item) succ

end Resolving

/-- The state of resolution between the methods of a class. -/
structure InClass (g : Globals) (cls : ClassRef) (n : Naming) (region : Region) : Prop where
  level : n.table.level = 2
  lookup : ∀ name, n.table.retrieve? name =
    (g.members cls.name name).or ((g.classes name).map .cls)
  classes : ∀ name, n.table.retrieveClass? name = g.classes name
  members : ∀ c name, n.table.retrieveMember? c name = g.members c name
  typeOf : ∀ d, g.Owner [] d → d.type n.bindings.get? = g.typeOf d
  apart : ∀ d, g.Owner [] d → ∀ home, d.home = .user home → home.below.Apart region
  free : n.bindings.Free region

namespace InClass

variable {g : Globals} {cls : ClassRef} {n n' : Naming} {a b region : Region} {uses : List Use}

theorem down (h : InClass g cls n b) (sub : a.Sub b) : InClass g cls n a :=
  { h with
    apart := fun d hd home hh => (h.apart d hd home hh).mono (.refl _) sub
    free := h.free.down sub }

theorem after (h : InClass g cls n region) (settled : Settles g uses a n n') (ha : a.Sub region)
    (hb : b.Sub region) (apart : a.Apart b) : InClass g cls n' b where
  level := settled.table ▸ h.level
  lookup := settled.table ▸ h.lookup
  classes := settled.table ▸ h.classes
  members := settled.table ▸ h.members
  typeOf d hd := (Decl.type_grown settled.grown ha (h.apart d hd)).trans (h.typeOf d hd)
  apart := fun d hd home hh => (h.apart d hd home hh).mono (.refl _) hb
  free := (h.free.down hb).grown settled.grown apart.symm

/-- Within a method, before its parameters. -/
theorem openScope (h : InClass g cls n region) (ctx : Resolving.Context) (same : ctx.cls = cls) :
    InMethod g ctx [] { n with table := n.table.openScope } region where
  lookup := by
    intro name
    subst same
    exact h.lookup name
  classes := h.classes
  members := h.members
  typeOf := h.typeOf
  apart := h.apart
  free := h.free
  inside := by
    rw [ScopeTable.level_openScope, h.level]
  locals := by
    rw [ScopeTable.locals_openScope (by rw [h.level]), ScopeTable.locals, h.level]
    rfl
  outer := by
    intro name
    have all : n.table.outer? = n.table.retrieve? := by
      funext name
      rw [ScopeTable.outer?, h.level]
      rfl
    subst same
    rw [ScopeTable.outer?_openScope (by rw [h.level]), all]
    exact h.lookup name

end InClass

namespace Resolving

variable {g : Globals} {n : Naming}

theorem resolveMethodDecl_resolves (regular : g.Regular) {cls : ClassRef} {site : Site}
    (m : MethodDecl) (state : InClass g cls n site.below) :
    Resolves g (resolveMethodDecl cls site m) (m.uses cls site) site.below n := by
  let ctx : Context := { cls := cls, isStatic := m.head.isStatic }
  have grouped : resolveMethodDecl cls site m = (do
      resolveType site.type m.head.result
      (do openScope
          (do resolveParams site 0 m.head.params
              (do openScope; resolveBody ctx site 0 m.body; closeScope))
          closeScope)) := by
    simp only [resolveMethodDecl, bind_assoc, ctx]
  rw [grouped]
  have params := site.itemsFrom_sub 1 0
  have body := site.itemsFrom_sub 2 0
  have apart : (site.itemsFrom 1 0).Apart (site.itemsFrom 2 0) := site.lists_apart (by decide) 0 0
  have below : ((site.itemsFrom 1 0).union (site.itemsFrom 2 0)).Sub site.below :=
    Region.union_sub params body
  have typeApart : site.type.below.Apart ((site.itemsFrom 1 0).union (site.itemsFrom 2 0)) :=
    Region.apart_union (Site.child_apart_items (by decide)) (Site.child_apart_items (by decide))
  have type := resolveType_resolves state.classes (state.free.down (site.child_sub 0))
    m.head.result
  refine Resolves.seq type ?_ typeApart (site.child_sub 0) below
  intro _ n' settled
  have typed := state.after settled (site.child_sub 0) below typeApart
  refine scoped_resolves ?_
  have first := resolveParams_leads regular m.head.params apart (typed.openScope ctx rfl)
  have both := first.bind
    (f := fun _ => do openScope; resolveBody ctx site 0 m.body; closeScope)
    (d := ∀ u ∈ Stmt.usesFrom ctx (MethodDecl.paramScope site 0 [] m.head.params) site.body 0
      m.body, u.Ok g) (Q := fun _ n'' => ∃ t, n'.table.openScope.SameAround t ∧
      Settles g (MethodDecl.paramUses site 0 [] m.head.params ++ Stmt.usesFrom ctx
          (MethodDecl.paramScope site 0 [] m.head.params) site.body 0 m.body)
        ((site.itemsFrom 1 0).union (site.itemsFrom 2 0)) { n' with table := t } n'') ?_
  · exact both.congr List.forall_mem_append.symm
  · rintro - _ n₁ ⟨⟨t, around, settled₁⟩, inside⟩
    have inner := scoped_resolves (resolveBody_leads regular m.body inside.openScope)
    refine inner.mono fun _ _ n₂ settled₂ => ⟨t, around, ?_⟩
    exact settled₁.append settled₂ apart (fun _ => .inl) fun _ => .inr

theorem resolveFields_resolves (fields : List FieldDecl) {cls : Site} {k : Nat}
    (classes : ∀ name, n.table.retrieveClass? name = g.classes name)
    (free : n.bindings.Free (cls.itemsFrom 0 k)) :
    Resolves g (resolveFields cls k fields) (ClassDecl.fieldUses cls k fields)
      (cls.itemsFrom 0 k) n := by
  induction fields generalizing n k with
  | nil => exact Resolves.nil
  | cons f rest ih =>
    have apart := cls.item_apart_rest 0 k
    have item : (cls.field k).below.Sub (cls.itemsFrom 0 k) := cls.item_sub_itemsFrom 0 k
    have typeSub : (cls.field k).type.below.Sub (cls.field k).below := (cls.field k).child_sub 0
    have typeApart := apart.mono typeSub (.refl _)
    have type := resolveType_resolves classes (free.down (typeSub.trans item)) f.type
    refine Resolves.seq type ?_ typeApart (typeSub.trans item) (cls.itemsFrom_succ_sub 0 k)
    intro _ n' settled
    exact ih (settled.table ▸ classes)
      ((free.down (cls.itemsFrom_succ_sub 0 k)).grown settled.grown typeApart.symm)

theorem resolveMethods_resolves (regular : g.Regular) {cls : ClassRef} {site : Site}
    (methods : List MethodDecl) {k : Nat} (state : InClass g cls n (site.itemsFrom 1 k)) :
    Resolves g ((methods.mapIdx fun i m => (site.method (k + i), m)).forM fun (methodSite, m) =>
        resolveMethodDecl cls methodSite m)
      ((methods.mapIdx fun i m => (site.method (k + i), m)).flatMap fun m => m.2.uses cls m.1)
      (site.itemsFrom 1 k) n := by
  induction methods generalizing n k with
  | nil => exact Resolves.nil
  | cons m rest ih =>
    have apart := site.item_apart_rest 1 k
    have item : (site.method k).below.Sub (site.itemsFrom 1 k) := site.item_sub_itemsFrom 1 k
    rw [mapIdx_cons_from fun i m => (site.method i, m)]
    refine Resolves.seq (resolveMethodDecl_resolves regular m (state.down item)) ?_ apart item
      (site.itemsFrom_succ_sub 1 k)
    intro _ n' settled
    exact ih (state.after settled item (site.itemsFrom_succ_sub 1 k) apart)

end Resolving

end JamCompiler

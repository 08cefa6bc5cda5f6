import JamCompiler.Proofs.Naming.SecondLook
import JamCompiler.Proofs.ScopeLaws

/-!
# Bodies in two runs

Expressions, statements and methods bind at sites apart from each other, so what a second run of
resolution does at them follows from what it does at the written types and references in them.
-/

namespace JamCompiler

open Pass

namespace Resolving

variable {bound : Site → Option Decl} {k : Nat}

theorem follows_resolveRef (ctx : Context) {site : Site} (inClass : Site.classAt k <:+ site)
    (r : Reference) {u : Use} (one : u.references = [(site, r)]) :
    Follows bound k [u] site.below (resolveRef ctx site r) where
  names := names_resolveRef ctx site r
  within := by simp [one, Site.below]
  grown n := (binds_resolveRef ctx site r n).imp fun _ _ h => h.2
  again beside run made := by
    obtain ⟨rfl, -, -, a', found', n', run', adds, -⟩ := again_resolveRef r inClass beside run made
    exact ⟨a', found', n', run', adds.congr (missedAmong_ref one).symm, fun _ => .inl⟩

/-- What is done at a call once its method has been resolved. -/
def rejectValue (r : Reference) : Option Decl → Resolving Unit
  | none => pure ()
  | some d => if !d.isMethod then reportName (.notMethod d.name) r.pos else pure ()

theorem resolveMethod_eq (ctx : Context) (site : Site) (r : Reference) :
    resolveMethod ctx site r = resolveRef ctx site r >>= rejectValue r := by
  unfold resolveMethod
  rfl

theorem names_rejectValue (r : Reference) (o : Option Decl) : Names (rejectValue r o) := by
  unfold rejectValue
  split
  · exact .pure ()
  · split
    · exact names_report _ _
    · exact .pure ()

theorem finishes_rejectValue (r : Reference) (o : Option Decl) :
    ∃ e, e.notes = [] ∧ ∀ s, Finishes (rejectValue r o) s () e s := by
  unfold rejectValue
  split
  · exact ⟨{}, rfl, fun _ => rfl⟩
  · split
    · exact ⟨_, rfl, fun _ => finishes_report.mpr ⟨rfl, rfl⟩⟩
    · exact ⟨{}, rfl, fun _ => rfl⟩

theorem follows_resolveMethod (ctx : Context) {site : Site} (inClass : Site.classAt k <:+ site)
    (r : Reference) {u : Use} (one : u.references = [(site, r)]) :
    Follows bound k [u] site.below (resolveMethod ctx site r) where
  names := names_resolveMethod ctx site r
  within := by simp [one, Site.below]
  grown n := by
    have reject (o : Option Decl) : Binds site.below (rejectValue r o) := by
      unfold rejectValue
      split
      · exact .pure ()
      · split
        · exact .report _ _
        · exact .pure ()
    rw [resolveMethod_eq]
    exact ((binds_resolveRef ctx site r).bind reject n).imp fun _ _ h => h.2
  again {t _ m _ n _ _} beside run made := by
    have names := names_resolveRef ctx site r
    rw [resolveMethod_eq] at run ⊢
    obtain ⟨o, f₁, ⟨t₁, m₁⟩, f₂, run₁, run₂, rfl⟩ := (names.seq_iff (names_rejectValue r)).mp run
    obtain ⟨e, notes, rejects⟩ := finishes_rejectValue r o
    obtain ⟨-, rfl, same⟩ := (rejects _).det run₂
    cases same
    obtain ⟨rfl, -, -, o', f₁', n', again₁, adds, alike⟩ :=
      again_resolveRef r inClass beside run₁ made
    obtain ⟨e', notes', rejects'⟩ := finishes_rejectValue r o'
    refine ⟨(), _, n', (names.seq_iff (names_rejectValue r)).mpr
      ⟨o', f₁', _, e', again₁, rejects' _, rfl⟩, Adds.congr ?_ (missedAmong_ref one).symm,
      fun _ => .inl⟩
    rcases alike with rfl | ⟨rfl, missed⟩
    · obtain ⟨-, rfl, -⟩ := (rejects {}).det (rejects' {})
      exact (adds.append (Q := False) (.same id)).congr (or_iff_left id)
    · obtain ⟨-, rfl, -⟩ := (rejects {}).det (rfl : Finishes (rejectValue r none) _ () {} _)
      rw [append_nothing]
      exact adds.more missed (.refl _) (.refl _ _) notes'

theorem Follows.fatal {α : Type} (fault : NameFault) (pos : Nat) (region : Region) :
    Follows bound k [.foreign] region (Pass.fatal (.naming fault) pos : Resolving α) where
  names := .fatal pos ⟨fault, rfl⟩
  within := by simp [Use.references]
  grown _ := .fatal
  again _ run _ := by cases run

/-- A step on the table, and another step after it. -/
theorem Follows.after {α β : Type} {us : List Use} {region : Region} {x : Resolving α}
    {y : Resolving β} (h : Follows bound k [] Region.empty x) (h' : Follows bound k us region y) :
    Follows bound k us region (x >>= fun _ => y) :=
  h.seq h' (Region.empty_apart _) (Region.empty_sub _) (.refl _)

/-- A step, and another step on the table after it. -/
theorem Follows.before {α β : Type} {us : List Use} {region : Region} {x : Resolving α}
    {y : Resolving β} (h : Follows bound k us region x) (h' : Follows bound k [] Region.empty y) :
    Follows bound k us region (x >>= fun _ => y) := by
  have both := h.seq h' (Region.empty_apart _).symm (.refl _) (Region.empty_sub _)
  rwa [List.append_nil] at both

theorem ends_setTable (t : ScopeTable) (n : Naming) :
    Ends (setTable t) n fun _ n' => n' = { n with table := t } := .modifyOwn rfl

theorem ends_openScope (n : Naming) :
    Ends openScope n fun _ n' => n' = { n with table := n.table.openScope } := by
  refine (ends_table n).bind ?_
  rintro _ _ ⟨rfl, rfl⟩
  exact ends_setTable _ _

theorem follows_openScope : Follows bound k [] Region.empty openScope := by
  refine .of_table names_openScope .openScope fun n => (ends_openScope n).imp ?_
  rintro _ _ rfl d known
  exact ScopeTable.knows_openScope.mp known

theorem follows_closeScope : Follows bound k [] Region.empty closeScope := by
  refine .of_table names_closeScope .closeScope fun n => (ends_table n).bind ?_
  rintro _ _ ⟨rfl, rfl⟩
  split
  · rename_i u closed
    refine (ends_setTable _ _).imp ?_
    rintro _ _ rfl d known
    exact ScopeTable.knows_of_closeScope closed known
  · exact .fatal

theorem Follows.scoped {us : List Use} {region : Region} {x : Resolving Unit}
    (h : Follows bound k us region x) :
    Follows bound k us region (do openScope; x; closeScope) :=
  follows_openScope.after (h.before follows_closeScope)

theorem follows_rejectDeclaration (branch : Stmt) :
    Follows bound k [] Region.empty (rejectDeclaration branch) := by
  refine .of_table (names_rejectDeclaration branch) (.rejectDeclaration branch) fun n => ?_
  unfold rejectDeclaration
  split
  · refine (ends_reportName _ _ n).imp ?_
    rintro _ _ rfl d known
    exact known
  · exact .pure fun _ known => known

/-- Entering a declaration makes that known, or nothing. -/
theorem ends_enter (d : Decl) (pos : Nat) (n : Naming) :
    Ends (enter d pos) n fun _ n' => n'.bindings = n.bindings ∧
      n.table.Gains (· = d) n'.table := by
  refine (TableStep.ends_of_attempts (n.table.enter? d).toOption fun log =>
    TableStep.attempts_enter d pos ⟨log, n⟩).imp ?_
  rintro _ _ ⟨-, rfl⟩
  cases entered : n.table.enter? d with
  | ok u => exact ⟨rfl, ScopeTable.gains_enter entered⟩
  | error fault => exact ⟨rfl, .refl _ _⟩

/-- The declaration of a parameter or a variable after its type. -/
theorem follows_declaration {home : Site} (inClass : Site.classAt k <:+ home) (type : TypeExpr)
    {d : Decl} (here : d.dataHome? = some home) (pos : Nat) :
    Follows bound k [] home.below (resolveType home.type type >>= fun _ => enter d pos) where
  names := .bind (names_resolveType _ _) fun _ => names_enter d pos
  within := nofun
  grown n := by
    refine (binds_resolveType home.type type n).bind fun _ n₁ h =>
      (ends_enter d pos n₁).imp fun _ n₂ h' => ?_
    rw [h'.1]
    exact h.2.up (home.child_sub 0)
  again {t t' m m' n _ _} beside run made := by
    have names := names_resolveType home.type type
    have inside := home.child_sub 0
    obtain ⟨u, f₁, ⟨t₁, m₁⟩, f₂, run₁, run₂, rfl⟩ :=
      (names.seq_iff fun _ => names_enter d pos).mp run
    have knows := ((ends_enter d pos ⟨t₁, m₁⟩).holds run₂).2.knows
    obtain ⟨rfl, entered⟩ := (OfTable.enter d pos).finishes run₂
    obtain ⟨rfl, again⟩ := again_resolveType type (beside.free.down inside) run₁ fun s hs => by
      rw [beside.waits s (inside s hs), made s (inside s hs)]
    refine ⟨_, _, n, (names.seq_iff fun _ => names_enter d pos).mpr
      ⟨u, f₁, ⟨t₁, n⟩, f₂, again, entered n, rfl⟩, .same not_missedAmong_nil, fun d' known => ?_⟩
    refine (knows d' known).imp_right ?_
    rintro rfl home' there
    cases here.symm.trans there
    exact ⟨inside, inClass, fun s hs => beside.waits s (inside s hs)⟩

mutual

/-- An expression is followed. -/
theorem follows_resolveExpr (ctx names : Context) (locals : Scope) {site : Site}
    (inClass : Site.classAt k <:+ site) (e : Expr) :
    Follows bound k (e.uses names locals site) site.below (resolveExpr ctx site e) := by
  have child (i : Nat) : Site.classAt k <:+ site.child i := inClass.trans (site.suffix_child i)
  match e with
  | .int .. | .bool .. | .null .. => exact (Follows.pure ()).up (Region.empty_sub _)
  | .unknown kind pos => exact .fatal _ _ _
  | .unary op operand pos =>
    exact (follows_resolveExpr ctx names locals (child 0) operand).up (site.child_sub 0)
  | .binary op left right pos =>
    exact (follows_resolveExpr ctx names locals (child 0) left).seq
      (follows_resolveExpr ctx names locals (child 1) right) (Site.children_apart (by decide))
      (site.child_sub 0) (site.child_sub 1)
  | .ref r pos =>
    exact ((follows_resolveRef ctx (child 0) r rfl).before (Follows.pure ())).up (site.child_sub 0)
  | .index r i pos =>
    exact (follows_resolveRef ctx (child 0) r rfl).seq
      (follows_resolveExpr ctx names locals (child 1) i)
      (Site.children_apart (by decide)) (site.child_sub 0) (site.child_sub 1)
  | .call method args pos =>
    exact (follows_resolveMethod ctx (child 0) method rfl).seq
      (follows_resolveArgs ctx names locals inClass 0 args) (Site.child_apart_items (by decide))
      (site.child_sub 0) (site.itemsFrom_sub 1 0)
  | .newObject type pos => exact (follows_resolveType type).up (site.child_sub 0)
  | .newArray element size pos =>
    exact (follows_resolveType element).seq (follows_resolveExpr ctx names locals (child 1) size)
      (Site.children_apart (by decide)) (site.child_sub 0) (site.child_sub 1)

theorem follows_resolveArgs (ctx names : Context) (locals : Scope) {call : Site}
    (inClass : Site.classAt k <:+ call) (i : Nat) (args : List Expr) :
    Follows bound k (Expr.argUses names locals call i args) (call.itemsFrom 1 i)
      (resolveArgs ctx call i args) := by
  match args with
  | [] => exact (Follows.pure ()).up (Region.empty_sub _)
  | e :: rest =>
    exact (follows_resolveExpr ctx names locals (inClass.trans (call.suffix_item 1 i)) e).seq
      (follows_resolveArgs ctx names locals inClass (i + 1) rest) (call.item_apart_rest 1 i)
      (call.item_sub_itemsFrom 1 i) (call.itemsFrom_succ_sub 1 i)

end

mutual

/-- A statement is followed. -/
theorem follows_resolveStmt (ctx names : Context) (locals : Scope) {site : Site}
    (inClass : Site.classAt k <:+ site) (s : Stmt) :
    Follows bound k (s.uses names locals site) site.below (resolveStmt ctx site s) := by
  have child (i : Nat) : Site.classAt k <:+ site.child i := inClass.trans (site.suffix_child i)
  have apart {i j : Nat} (h : i ≠ j) : (site.child i).below.Apart (site.child j).below :=
    Site.children_apart h
  match s with
  | .unknown kind pos => exact .fatal _ _ _
  | .block stmts pos =>
    exact ((follows_resolveStmts ctx names locals inClass 0 stmts).up
      (site.itemsFrom_sub 0 0)).scoped
  | .declare var init pos =>
    have declared : Follows bound k [] site.var.below _ :=
      follows_declaration (child 0) var.type (d := .var site.var var) rfl var.pos
    have both :=
      declared.seq (follows_resolveExpr { ctx with initializing := some (.var site.var var) }
      { names with initializing := some (.var site.var var) }
      ((var.name, .var site.var var) :: locals)
      (child 1) init) (apart (by decide)) (site.child_sub 0) (site.child_sub 1)
    rw [bind_assoc] at both
    exact (both.cons (u := .declare locals var.name) rfl).cons
      (u := .type site.var.type var.type) rfl
  | .assign target value pos =>
    exact (follows_resolveRef ctx (child 0) target rfl).seq
      (follows_resolveExpr ctx names locals (child 2) value) (apart (by decide)) (site.child_sub 0)
      (site.child_sub 2)
  | .assignIndex target index value pos =>
    exact (follows_resolveRef ctx (child 0) target rfl).seq
      ((follows_resolveExpr ctx names locals (child 1) index).seq
        (follows_resolveExpr ctx names locals (child 2) value) (apart (by decide))
        (Region.sub_union_left _ _) (Region.sub_union_right _ _))
      (Region.apart_union (apart (by decide)) (apart (by decide))) (site.child_sub 0)
      (Region.union_sub (site.child_sub 1) (site.child_sub 2))
  | .call method args pos =>
    exact (follows_resolveMethod ctx (child 0) method rfl).seq
      (follows_resolveArgs ctx names locals inClass 0 args) (Site.child_apart_items (by decide))
      (site.child_sub 0) (site.itemsFrom_sub 1 0)
  | .ret none pos => exact (Follows.pure ()).up (Region.empty_sub _)
  | .ret (some value) pos =>
    exact (follows_resolveExpr ctx names locals (child 2) value).up (site.child_sub 2)
  | .ifThen cond body pos | .loop cond body pos =>
    have branch := (follows_rejectDeclaration body).after
      (follows_resolveStmt ctx names locals (child 1) body)
    exact (follows_resolveExpr ctx names locals (child 0) cond).seq
      (branch.cons (u := .branch body) rfl) (apart (by decide))
      (site.child_sub 0) (site.child_sub 1)
  | .ifElse cond body other pos =>
    have last := (follows_rejectDeclaration other).after
      (follows_resolveStmt ctx names locals (child 2) other)
    have branches := (follows_rejectDeclaration body).after
      ((follows_resolveStmt ctx names locals (child 1) body).seq
        (last.cons (u := .branch other) rfl)
        (apart (by decide)) (Region.sub_union_left _ _) (Region.sub_union_right _ _))
    exact (follows_resolveExpr ctx names locals (child 0) cond).seq
      (branches.cons (u := .branch body) rfl)
      (Region.apart_union (apart (by decide)) (apart (by decide))) (site.child_sub 0)
      (Region.union_sub (site.child_sub 1) (site.child_sub 2))

theorem follows_resolveStmts (ctx names : Context) (locals : Scope) {block : Site}
    (inClass : Site.classAt k <:+ block) (i : Nat) (stmts : List Stmt) :
    Follows bound k (Stmt.usesFrom names locals block.stmt i stmts) (block.itemsFrom 0 i)
      (resolveStmts ctx block i stmts) := by
  match stmts with
  | [] => exact (Follows.pure ()).up (Region.empty_sub _)
  | s :: rest =>
    exact (follows_resolveStmt ctx names locals (inClass.trans (block.suffix_item 0 i)) s).seq
      (follows_resolveStmts ctx names _ inClass (i + 1) rest) (block.item_apart_rest 0 i)
      (block.item_sub_itemsFrom 0 i) (block.itemsFrom_succ_sub 0 i)

end

theorem follows_resolveBody (ctx names : Context) (locals : Scope) {method : Site}
    (inClass : Site.classAt k <:+ method) (i : Nat) (stmts : List Stmt) :
    Follows bound k (Stmt.usesFrom names locals method.body i stmts) (method.itemsFrom 2 i)
      (resolveBody ctx method i stmts) := by
  induction stmts generalizing locals i with
  | nil => exact (Follows.pure ()).up (Region.empty_sub _)
  | cons s rest ih =>
    exact (follows_resolveStmt ctx names locals (inClass.trans (method.suffix_item 2 i)) s).seq
      (ih _ (i + 1)) (method.item_apart_rest 2 i) (method.item_sub_itemsFrom 2 i)
      (method.itemsFrom_succ_sub 2 i)

theorem follows_resolveParams {method : Site} (inClass : Site.classAt k <:+ method) (locals : Scope)
    (i : Nat) (params : List ParamDecl) :
    Follows bound k (MethodDecl.paramUses method i locals params) (method.itemsFrom 1 i)
      (resolveParams method i params) := by
  induction params generalizing locals i with
  | nil => exact (Follows.pure ()).up (Region.empty_sub _)
  | cons p rest ih =>
    have declared : Follows bound k [] (method.param i).below _ := follows_declaration
      (inClass.trans (method.suffix_item 1 i)) p.type (d := .param (method.param i) p) rfl p.pos
    have both := declared.seq (ih ((p.name, .param (method.param i) p) :: locals) (i + 1))
      (method.item_apart_rest 1 i) (method.item_sub_itemsFrom 1 i) (method.itemsFrom_succ_sub 1 i)
    rw [bind_assoc] at both
    exact (both.cons (u := .declare locals p.name) rfl).cons
      (u := .type (method.param i).type p.type) rfl

/-- A method is followed. -/
theorem follows_resolveMethodDecl (cls : ClassRef) {site : Site} (inClass : Site.classAt k <:+ site)
    (m : MethodDecl) :
    Follows bound k (m.uses cls site) site.below (resolveMethodDecl cls site m) := by
  have params : Follows bound k _ _ _ := follows_resolveParams inClass [] 0 m.head.params
  have body : Follows bound k _ _ _ :=
    (follows_resolveBody { cls := cls, isStatic := m.head.isStatic } (m.context cls)
      (m.scope site) inClass 0 m.body).scoped
  have lists : (site.itemsFrom 1 0).Apart (site.itemsFrom 2 0) := site.lists_apart (by decide) 0 0
  have inner :=
    (params.seq body lists (Region.sub_union_left _ _) (Region.sub_union_right _ _)).scoped
  have apart : site.type.below.Apart ((site.itemsFrom 1 0).union (site.itemsFrom 2 0)) :=
    Region.apart_union (Site.child_apart_items (by decide)) (Site.child_apart_items (by decide))
  have whole := (follows_resolveType m.head.result).seq inner apart (site.child_sub 0)
    (Region.union_sub (site.itemsFrom_sub 1 0) (site.itemsFrom_sub 2 0))
  simp only [bind_assoc] at whole
  exact whole

end Resolving

end JamCompiler

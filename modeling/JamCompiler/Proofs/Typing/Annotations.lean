import JamCompiler.Proofs.Stages
import JamCompiler.Proofs.Typing.Rules

/-!
# Annotations

What a check leaves at the nodes of a program. `Expr.nodes` and `Stmt.nodes` list the nodes with
their sites. Whatever log a check begins with, if it comes to its end then every node has a type,
and an expression that has a type by itself has got that one, even if something else is wrong.
-/

namespace JamCompiler

open Pass Typing

mutual

/-- The expressions in an expression, with their sites. -/
def Expr.parts (site : Site) : Expr → List (Site × Expr)
  | .unary _ operand _ => (site.operand, operand) :: operand.parts site.operand
  | .binary _ left right _ =>
    (site.left, left) :: left.parts site.left ++ (site.right, right) :: right.parts site.right
  | .index _ i _ => (site.index, i) :: i.parts site.index
  | .call _ args _ => Expr.argNodes site 0 args
  | .newArray _ size _ => (site.size, size) :: size.parts site.size
  | .int .. | .bool .. | .null .. | .ref .. | .newObject .. | .unknown .. => []

/-- The arguments of a call from the `k`th on, and the expressions in them. -/
def Expr.argNodes (call : Site) (k : Nat) : List Expr → List (Site × Expr)
  | [] => []
  | e :: rest => (call.arg k, e) :: e.parts (call.arg k) ++ Expr.argNodes call (k + 1) rest

end

/-- An expression and the expressions in it, with their sites. -/
def Expr.nodes (site : Site) (e : Expr) : List (Site × Expr) := (site, e) :: e.parts site

mutual

/-- All expressions in a statement, with their sites. -/
def Stmt.exprNodes (site : Site) : Stmt → List (Site × Expr)
  | .block stmts _ => Stmt.exprNodesFrom site.stmt 0 stmts
  | .declare _ init _ => init.nodes site.init
  | .assign _ value _ => value.nodes site.value
  | .assignIndex _ index value _ => index.nodes site.index ++ value.nodes site.value
  | .call _ args _ => Expr.argNodes site 0 args
  | .ret none _ => []
  | .ret (some value) _ => value.nodes site.value
  | .ifThen cond body _ | .loop cond body _ =>
    cond.nodes site.cond ++ body.exprNodes site.thenBranch
  | .ifElse cond body other _ =>
    cond.nodes site.cond ++ (body.exprNodes site.thenBranch ++ other.exprNodes site.elseBranch)
  | .unknown .. => []

/-- The expressions in statements from the `k`th on, whose sites are given. -/
def Stmt.exprNodesFrom (sites : Nat → Site) (k : Nat) : List Stmt → List (Site × Expr)
  | [] => []
  | s :: rest => s.exprNodes (sites k) ++ Stmt.exprNodesFrom sites (k + 1) rest

end

mutual

/-- The sites of a statement and of the statements in it. -/
def Stmt.sites (site : Site) : Stmt → List Site
  | .block stmts _ => site :: Stmt.sitesFrom site.stmt 0 stmts
  | .ifThen _ body _ | .loop _ body _ => site :: body.sites site.thenBranch
  | .ifElse _ body other _ => site :: (body.sites site.thenBranch ++ other.sites site.elseBranch)
  | .declare .. | .assign .. | .assignIndex .. | .call .. | .ret .. | .unknown .. => [site]

/-- The sites of statements from the `k`th on, and of the statements in them. -/
def Stmt.sitesFrom (sites : Nat → Site) (k : Nat) : List Stmt → List Site
  | [] => []
  | s :: rest => s.sites (sites k) ++ Stmt.sitesFrom sites (k + 1) rest

end

namespace Program

/-- All expressions in the bodies of a program, with their sites. -/
def exprNodes (p : Program) : List (Site × Expr) :=
  p.sitedMethods.flatMap fun (site, m) => Stmt.exprNodesFrom site.body 0 m.body

/-- The sites of all statements in the bodies of a program. -/
def stmtSites (p : Program) : List Site :=
  p.sitedMethods.flatMap fun (site, m) => Stmt.sitesFrom site.body 0 m.body

end Program

namespace Typing

section Quiet

variable {α : Type} {ctx : Context} {m : SiteMap ValueType} {site : Site}

/-- A step that leaves the types alone when it comes to its end. -/
abbrev Quiet (x : Typing α) (m : SiteMap ValueType) : Prop := Ends x m fun _ m' => m' = m

theorem quiet_report (fault : TypeFault) (pos : Nat) (m : SiteMap ValueType) :
    Quiet (reportType fault pos) m := by
  refine ⟨fun run => ?_⟩
  rw [reportType, run_report] at run
  split at run
  · cases run
  · cases run
    rfl

theorem quiet_faulty (fault : TypeFault) (pos : Nat) (m : SiteMap ValueType) :
    Quiet (faulty fault pos) m :=
  (quiet_report fault pos m).bind fun _ _ same => .pure same

theorem quiet_declOf (ctx : Context) (site : Site) (r : Reference) (m : SiteMap ValueType) :
    Quiet (declOf ctx site r) m := by
  unfold declOf
  cases ctx.bound site with
  | some d => exact .pure rfl
  | none => exact .fatal

theorem quiet_checkValue (ctx : Context) (site : Site) (r : Reference) (m : SiteMap ValueType) :
    Quiet (checkValue ctx site r) m := by
  refine (quiet_declOf ctx site r m).bind fun d m' same => ?_
  subst same
  split
  · exact .pure rfl
  · exact quiet_faulty _ _ _
  · exact quiet_faulty _ _ _
  · split
    · exact quiet_faulty _ _ _
    · exact .pure rfl

theorem quiet_checkTarget (ctx : Context) (site : Site) (r : Reference) (m : SiteMap ValueType) :
    Quiet (checkTarget ctx site r) m := by
  refine (quiet_declOf ctx site r m).bind fun d m' same => ?_
  subst same
  split
  · exact quiet_faulty _ _ _
  · exact quiet_faulty _ _ _
  · exact quiet_faulty _ _ _
  · split
    · exact quiet_faulty _ _ _
    · split
      · exact quiet_faulty _ _ _
      · exact .pure rfl

theorem quiet_checkUnary (op : UnaryOp) (pos : Nat) (given : ValueType) (m : SiteMap ValueType) :
    Quiet (checkUnary op pos given) m := by
  unfold checkUnary
  cases op with
  | neg | not =>
    dsimp only
    split
    · exact .pure rfl
    · exact quiet_faulty _ _ _
  | other text => exact .fatal

theorem quiet_checkBinary (op : BinaryOp) (pos : Nat) (left right : ValueType)
    (m : SiteMap ValueType) : Quiet (checkBinary op pos left right) m := by
  unfold checkBinary
  cases op with
  | other text => exact .fatal
  | or | and | eq | ne | lt | le | gt | ge | add | sub | mul | div =>
    dsimp only
    split
    · exact .pure rfl
    · exact quiet_faulty _ _ _

theorem quiet_matchArgs (method : String) (args : List (Nat × ValueType))
    (params : List (ParamDecl × ValueType)) (m : SiteMap ValueType) :
    Quiet (matchArgs method args params) m := by
  induction args generalizing params with
  | nil => exact .pure rfl
  | cons arg rest ih =>
    cases params with
    | nil => exact .pure rfl
    | cons p params =>
      unfold matchArgs
      dsimp only
      split
      · refine (quiet_report _ _ m).bind fun _ m' same => ?_
        subst same
        exact ih params
      · exact ih params

theorem quiet_checkCall (ctx : Context) (d : Decl) (r : Reference) (pos : Nat)
    (args : List (Nat × ValueType)) (m : SiteMap ValueType) :
    Quiet (checkCall ctx d r pos args) m := by
  unfold checkCall
  split
  · split
    · exact quiet_faulty _ _ _
    · refine (quiet_matchArgs _ _ _ m).bind fun _ m' same => ?_
      exact .pure same
  · exact quiet_faulty _ _ _

/-- A fault that is reported unless a condition holds, before a step goes on. -/
theorem ends_unless {c : Bool} {fault : TypeFault} {pos : Nat} {next : Unit → Typing α}
    {P : α → SiteMap ValueType → Prop} (after : Ends (next ()) m P) :
    Ends (if (!c) = true then reportType fault pos >>= next else next ()) m P := by
  split
  · refine (quiet_report fault pos m).bind fun _ m' same => ?_
    subst same
    exact after
  · exact after

/-- A node without a type gets one. -/
theorem ends_record (free : m.get? site = none) (type : ValueType) :
    Ends (record site type) m fun a m' => SiteMap.Grown site.below m m' ∧
      m'.get? site = some a ∧ a = type := by
  have known := SiteMap.get?_fill_free free type
  refine Ends.bind (Ends.modifyOwn (P := fun _ m' => m' = m.fill site type) rfl) fun _ m' same => ?_
  refine Ends.bind (Ends.getOwn (P := fun t m'' => t = m' ∧ m'' = m') ⟨rfl, rfl⟩)
    fun t m'' both => ?_
  obtain ⟨rfl, rfl⟩ := both
  subst same
  refine .pure ⟨SiteMap.grown_fill m site type, ?_, ?_⟩ <;> simp [known]

end Quiet

/-- An expression has got a type, and the one that it has by itself if there is one. -/
def Annotated (bound : Site → Option Decl) (m : SiteMap ValueType) (n : Site × Expr) : Prop :=
  ∃ t, m.get? n.1 = some t ∧ ∀ s, n.2.type? bound n.1 = some s → t = s

theorem Annotated.grown {bound : Site → Option Decl} {m m' : SiteMap ValueType} {n : Site × Expr}
    {region : Region} (h : Annotated bound m n) (grown : SiteMap.Grown region m m') :
    Annotated bound m' n := by
  obtain ⟨t, known, same⟩ := h
  exact ⟨t, grown.kept known, same⟩

section Expressions

variable (ctx : Context)

theorem plain_checkExpr (site : Site) (e : Expr) : Types True True (checkExpr ctx site e) := by
  have unbound : ∀ u ∈ e.uses ⟨Predefined.string, false, none⟩ [] site, ∀ l ∈ u.references,
      ctx.bound l.1 = none → True := fun _ _ _ _ _ => trivial
  exact types_checkExpr ctx e unbound fun _ => trivial

/-- An expression that has a type by itself is found to have it, whatever was reported before. -/
theorem answer_eq {site : Site} {e : Expr} {m : SiteMap ValueType} (free : m.Free site.below)
    {log : Log} {a t : ValueType} {w : Work (SiteMap ValueType)}
    (run : EStateM.run (checkExpr ctx site e) ⟨log, m⟩ = .ok a w)
    (typed : e.type? ctx.bound site = some t) : a = t := by
  obtain ⟨b, m', strictly, known, -⟩ :=
    (gives_checkExpr ctx site e free).ends (Option.isSome_of_mem typed)
  have clean := (plain_checkExpr ctx site e).clean_iff log m m' b
  obtain ⟨w', run', -⟩ := clean.mpr ⟨_, strictly, rfl⟩
  cases run.symm.trans run'
  exact Option.some.inj (known.symm.trans typed)

/-- What a check of an expression leaves. -/
def Left (bound : Site → Option Decl) (site : Site) (e : Expr) (m : SiteMap ValueType)
    (a : ValueType) (m' : SiteMap ValueType) : Prop :=
  SiteMap.Grown site.below m m' ∧ m'.get? site = some a ∧ ∀ n ∈ e.parts site, Annotated bound m' n

/-- What is left at an expression and in it. -/
theorem ends_nodes {site : Site} {e : Expr} {m : SiteMap ValueType} (free : m.Free site.below)
    (h : Ends (checkExpr ctx site e) m (Left ctx.bound site e m)) :
    Ends (checkExpr ctx site e) m fun _ m' =>
      SiteMap.Grown site.below m m' ∧ ∀ n ∈ e.nodes site, Annotated ctx.bound m' n := by
  refine ⟨fun run => ?_⟩
  obtain ⟨grown, self, parts⟩ := h.holds run
  exact ⟨grown,
    List.forall_mem_cons.mpr ⟨⟨_, self, fun _ typed => answer_eq ctx free run typed⟩, parts⟩⟩

/-- A step after which the type of an expression is recorded. -/
theorem ends_recorded {x : Typing ValueType} {site : Site} {e : Expr} {m₀ m : SiteMap ValueType}
    (quiet : Quiet x m) (free : m.get? site = none) (grown : SiteMap.Grown site.below m₀ m)
    (parts : ∀ n ∈ e.parts site, Annotated ctx.bound m n) :
    Ends (x >>= record site) m (Left ctx.bound site e m₀) := by
  refine quiet.bind fun type m' same => ?_
  subst same
  refine (ends_record free type).imp fun a m'' ⟨grown', self, _⟩ => ?_
  exact ⟨grown.trans grown', self, fun n hn => (parts n hn).grown grown'⟩

/-- A type that is recorded at once. -/
theorem ends_recordedType {site : Site} {e : Expr} {m₀ m : SiteMap ValueType} (type : ValueType)
    (free : m.get? site = none) (grown : SiteMap.Grown site.below m₀ m)
    (parts : ∀ n ∈ e.parts site, Annotated ctx.bound m n) :
    Ends (record site type) m (Left ctx.bound site e m₀) := by
  refine (ends_record free type).imp fun a m' ⟨grown', self, _⟩ => ?_
  exact ⟨grown.trans grown', self, fun n hn => (parts n hn).grown grown'⟩

mutual

/-- A check of an expression that comes to its end leaves types at all expressions in it. -/
theorem ends_checkExpr {m : SiteMap ValueType} (site : Site) (e : Expr) (free : m.Free site.below) :
    Ends (checkExpr ctx site e) m (Left ctx.bound site e m) := by
  have self := free_self free
  match e with
  | .int .. | .bool .. | .null .. => exact ends_recordedType ctx _ self (.refl _ _) nofun
  | .unknown .. => exact .fatal
  | .unary op operand pos =>
    have free' := free.down (site.child_sub 0)
    refine (ends_nodes ctx free' (ends_checkExpr site.operand operand free')).bind
      fun given m' inner => ?_
    have self' := (inner.1.same (not_below_child site 0)).trans self
    exact ends_recorded ctx (quiet_checkUnary op pos given m') self'
      (inner.1.up (site.child_sub 0)) inner.2
  | .binary op left right pos =>
    have free' := free.down (site.child_sub 0)
    refine (ends_nodes ctx free' (ends_checkExpr site.left left free')).bind fun l m₁ first => ?_
    have free₁ := (free.down (site.child_sub 1)).grown first.1
      (Site.children_apart (s := site) (k := 1) (l := 0) (by simp))
    refine (ends_nodes ctx free₁ (ends_checkExpr site.right right free₁)).bind fun r m₂ second => ?_
    have self' := (second.1.same (not_below_child site 1)).trans
      ((first.1.same (not_below_child site 0)).trans self)
    have grown := (first.1.up (site.child_sub 0)).trans (second.1.up (site.child_sub 1))
    exact ends_recorded ctx (quiet_checkBinary op pos l r m₂) self' grown
      (List.forall_mem_append.mpr
      ⟨fun n hn => (first.2 n hn).grown second.1, second.2⟩)
  | .ref r pos =>
    exact ends_recorded ctx (quiet_checkValue ctx site.target r m) self (.refl _ _) nofun
  | .index r i pos =>
    refine (quiet_checkValue ctx site.target r m).bind fun type m' same => ?_
    subst same
    have free' := free.down (site.child_sub 1)
    refine (ends_nodes ctx free' (ends_checkExpr site.index i free')).bind fun given m₁ inner =>
      ends_unless ?_
    have self' := (inner.1.same (not_below_child site 1)).trans self
    have grown := inner.1.up (site.child_sub 1)
    split
    · exact ends_recordedType ctx _ self' grown inner.2
    · exact ends_recordedType ctx _ self' grown inner.2
    · exact ends_recorded ctx (quiet_faulty _ _ m₁) self' grown inner.2
  | .call r args pos =>
    refine (quiet_declOf ctx site.target r m).bind fun d m' same => ?_
    subst same
    refine (ends_checkArgs site 0 args (free.down (site.itemsFrom_sub 1 0))).bind
      fun types m₁ inner => ?_
    have self' := (inner.1.same (not_itemsFrom site 1 0)).trans self
    exact ends_recorded ctx (quiet_checkCall ctx d r pos types m₁) self'
      (inner.1.up (site.itemsFrom_sub 1 0))
      inner.2
  | .newObject type pos => exact ends_recordedType ctx _ self (.refl _ _) nofun
  | .newArray element size pos =>
    have free' := free.down (site.child_sub 1)
    refine (ends_nodes ctx free' (ends_checkExpr site.size size free')).bind fun given m₁ inner =>
      ends_unless ?_
    have self' := (inner.1.same (not_below_child site 1)).trans self
    exact ends_recordedType ctx _ self' (inner.1.up (site.child_sub 1)) inner.2

theorem ends_checkArgs {m : SiteMap ValueType} (call : Site) (k : Nat) (args : List Expr)
    (free : m.Free (call.itemsFrom 1 k)) : Ends (checkArgs ctx call k args) m fun _ m' =>
      SiteMap.Grown (call.itemsFrom 1 k) m m' ∧
        ∀ n ∈ Expr.argNodes call k args, Annotated ctx.bound m' n := by
  match args with
  | [] => exact .pure ⟨.refl _ _, nofun⟩
  | e :: rest =>
    have free' := free.down (call.item_sub_itemsFrom 1 k)
    refine (ends_nodes ctx free' (ends_checkExpr (call.arg k) e free')).bind fun type m₁ first => ?_
    have restFree :=
      (free.down (call.itemsFrom_succ_sub 1 k)).grown first.1 (call.item_apart_rest 1 k).symm
    refine (ends_checkArgs call (k + 1) rest restFree).bind fun types m₂ later => .pure ?_
    exact ⟨(first.1.up (call.item_sub_itemsFrom 1 k)).trans
      (later.1.up (call.itemsFrom_succ_sub 1 k)),
      List.forall_mem_append.mpr ⟨fun n hn => (first.2 n hn).grown later.1, later.2⟩⟩

end

/-- Whatever is said of nodes in a region after a step: expressions are annotated, and statements
have the type of what has no value. -/
structure Covered (bound : Site → Option Decl) (region : Region) (exprs : List (Site × Expr))
    (sites : List Site) (m m' : SiteMap ValueType) : Prop where
  grown : SiteMap.Grown region m m'
  exprs : ∀ n ∈ exprs, Annotated bound m' n
  sites : ∀ t ∈ sites, m'.get? t = some (.base .unsupported)

section Covered

variable {ctx : Context} {bound : Site → Option Decl} {a b c : Region} {es es' : List (Site × Expr)}
  {ts ts' : List Site} {m m₀ m' m'' : SiteMap ValueType} {site : Site}

theorem Covered.trans (h : Covered bound a es ts m m') (h' : Covered bound b es' ts' m' m'')
    (sub : a.Sub c) (sub' : b.Sub c) : Covered bound c (es ++ es') (ts ++ ts') m m'' where
  grown := (h.grown.up sub).trans (h'.grown.up sub')
  exprs := List.forall_mem_append.mpr ⟨fun n hn => (h.exprs n hn).grown h'.grown, h'.exprs⟩
  sites := List.forall_mem_append.mpr ⟨fun t ht => h'.grown.kept (h.sites t ht), h'.sites⟩

theorem ends_exprCovered (ctx : Context) {site : Site} (e : Expr) (free : m.Free site.below) :
    Ends (checkExpr ctx site e) m fun _ m' => Covered ctx.bound site.below (e.nodes site) [] m m' :=
  (ends_nodes ctx free (ends_checkExpr ctx site e free)).imp fun _ _ h => ⟨h.1, h.2, nofun⟩

theorem ends_argsCovered (ctx : Context) {call : Site} (args : List Expr)
    (free : m.Free (call.itemsFrom 1 0)) :
    Ends (checkArgs ctx call 0 args) m fun _ m' =>
      Covered ctx.bound (call.itemsFrom 1 0) (Expr.argNodes call 0 args) [] m m' :=
  (ends_checkArgs ctx call 0 args free).imp fun _ _ h => ⟨h.1, h.2, nofun⟩

theorem covered_refl (bound : Site → Option Decl) (region : Region) (m : SiteMap ValueType) :
    Covered bound region [] [] m m := ⟨.refl _ _, nofun, nofun⟩

/-- What is done below a child of a node leaves the node as it is. -/
theorem Covered.self {k : Nat} (h : Covered bound (site.child k).below es ts m m')
    (self : m.get? site = none) : m'.get? site = none :=
  (h.grown.same (not_below_child site k)).trans self

/-- The last step of a statement. -/
theorem ends_finish (h : Covered bound a es ts m₀ m) (sub : a.Sub site.below)
    (self : m.get? site = none) :
    Ends (finish site) m fun _ m' => Covered bound site.below es (site :: ts) m₀ m' := by
  refine (ends_record self (.base .unsupported)).bind fun type m' ⟨grown, known, same⟩ => .pure ?_
  exact ⟨(h.grown.up sub).trans grown, fun n hn => (h.exprs n hn).grown grown,
    List.forall_mem_cons.mpr ⟨same ▸ known, fun t ht => grown.kept (h.sites t ht)⟩⟩

theorem ends_unless_finish {c : Bool} {fault : TypeFault} {pos : Nat}
    {P : Unit → SiteMap ValueType → Prop} (after : Ends (finish site) m P) :
    Ends (if (!c) = true then reportType fault pos >>= fun _ => finish site
      else finish site) m P := by
  have after' : Ends ((fun _ : Unit => finish site) ()) m P := after
  exact ends_unless after'

/-- A fault that is reported on a condition, as the last step. -/
theorem quiet_if {c : Prop} [Decidable c] (fault : TypeFault) (pos : Nat) (m : SiteMap ValueType) :
    Quiet (if c then reportType fault pos else pure ()) m := by
  split
  · exact quiet_report fault pos m
  · exact .pure rfl

theorem Quiet.covered {α : Type} {x : Typing α} (quiet : Quiet x m)
    (h : Covered bound a es ts m₀ m) : Ends x m fun _ m' => Covered bound a es ts m₀ m' := by
  refine quiet.imp fun _ m' same => ?_
  subst same
  exact h

theorem ends_checkCondition (ctx : Context) {site : Site} (statement : String) (cond : Expr)
    (free : m.Free site.below) : Ends (checkCondition ctx site statement cond) m fun _ m' =>
      Covered ctx.bound site.below (cond.nodes site) [] m m' := by
  refine (ends_exprCovered ctx cond free).bind fun given m' inner => ?_
  exact (quiet_if _ _ m').covered inner

theorem ends_checkReturn (ctx : Context) {site : Site} (pos : Nat) (value : Option Expr)
    (free : m.Free (site.child 2).below) : Ends (checkReturn ctx site pos value) m fun _ m' =>
      Covered ctx.bound (site.child 2).below ((Stmt.ret value pos).exprNodes site) [] m m' := by
  cases value with
  | none => exact (quiet_if _ _ m).covered (covered_refl _ _ m)
  | some value =>
    refine (ends_exprCovered ctx value free).bind fun given m' inner => ?_
    split
    · exact (quiet_report _ _ m').covered inner
    · exact (quiet_if _ _ m').covered inner

end Covered

mutual

/-- A check of a statement that comes to its end leaves types at all nodes in it. -/
theorem ends_checkStmt {m : SiteMap ValueType} (site : Site) (s : Stmt) (free : m.Free site.below) :
    Ends (checkStmt ctx site s) m fun _ m' =>
      Covered ctx.bound site.below (s.exprNodes site) (s.sites site) m m' := by
  have self := free_self free
  have child (k : Nat) : m.Free (site.child k).below := free.down (site.child_sub k)
  match s with
  | .unknown kind pos => exact .fatal
  | .block stmts pos =>
    refine (ends_checkStmts site 0 stmts (free.down (site.itemsFrom_sub 0 0))).bind
      fun _ m' inner => ?_
    exact ends_finish inner (site.itemsFrom_sub 0 0)
      ((inner.grown.same (not_itemsFrom site 0 0)).trans self)
  | .declare var init pos =>
    refine (ends_exprCovered ctx init (child 1)).bind fun given m' inner => ends_unless_finish ?_
    exact ends_finish inner (site.child_sub 1) (inner.self self)
  | .assign target value pos =>
    refine (quiet_checkTarget ctx site.target target m).bind fun expected m' same => ?_
    subst same
    refine (ends_exprCovered ctx value (child 2)).bind fun given m' inner => ends_unless_finish ?_
    exact ends_finish inner (site.child_sub 2) (inner.self self)
  | .assignIndex target index value pos =>
    refine (quiet_checkTarget ctx site.target target m).bind fun type m' same => ?_
    subst same
    refine (ends_exprCovered ctx index (child 1)).bind fun i m₁ first => ?_
    have free₁ := (child 2).grown first.grown (Site.children_apart (by simp))
    refine (ends_exprCovered ctx value free₁).bind fun given m₂ second => ends_unless ?_
    have both := first.trans second (site.child_sub 1) (site.child_sub 2)
    have self' := second.self (first.self self)
    split
    · exact ends_unless_finish (ends_finish both (.refl _) self')
    · exact ends_finish both (.refl _) self'
    · refine (quiet_report _ _ m₂).bind fun _ m₃ same => ?_
      subst same
      exact ends_finish both (.refl _) self'
  | .call method args pos =>
    refine (quiet_declOf ctx site.target method m).bind fun d m' same => ?_
    subst same
    refine (ends_argsCovered ctx args (free.down (site.itemsFrom_sub 1 0))).bind
      fun types m₁ inner => ?_
    refine ((quiet_checkCall ctx d method pos types m₁).covered inner).bind fun type m₂ inner' => ?_
    exact ends_finish inner' (site.itemsFrom_sub 1 0)
      ((inner'.grown.same (not_itemsFrom site 1 0)).trans self)
  | .ret value pos =>
    refine (ends_checkReturn ctx pos value (child 2)).bind fun _ m' inner => ?_
    exact ends_finish inner (site.child_sub 2) (inner.self self)
  | .ifThen cond body pos | .loop cond body pos =>
    refine (ends_checkCondition ctx _ cond (child 0)).bind fun _ m₁ first => ?_
    have free₁ := (child 1).grown first.grown (Site.children_apart (by simp))
    refine (ends_checkStmt site.thenBranch body free₁).bind fun _ m₂ second => ?_
    exact ends_finish (first.trans second (site.child_sub 0) (site.child_sub 1)) (.refl _)
      (second.self (first.self self))
  | .ifElse cond body other pos =>
    refine (ends_checkCondition ctx _ cond (child 0)).bind fun _ m₁ first => ?_
    have free₁ := (child 1).grown first.grown (Site.children_apart (by simp))
    refine (ends_checkStmt site.thenBranch body free₁).bind fun _ m₂ second => ?_
    have free₂ := ((child 2).grown first.grown (Site.children_apart (by simp))).grown second.grown
      (Site.children_apart (by simp))
    refine (ends_checkStmt site.elseBranch other free₂).bind fun _ m₃ third => ?_
    have branches := second.trans third (site.child_sub 1) (site.child_sub 2)
    exact ends_finish (first.trans branches (site.child_sub 0) (.refl _)) (.refl _)
      (third.self (second.self (first.self self)))

theorem ends_checkStmts {m : SiteMap ValueType} (block : Site) (k : Nat) (stmts : List Stmt)
    (free : m.Free (block.itemsFrom 0 k)) : Ends (checkStmts ctx block k stmts) m fun _ m' =>
      Covered ctx.bound (block.itemsFrom 0 k) (Stmt.exprNodesFrom block.stmt k stmts)
        (Stmt.sitesFrom block.stmt k stmts) m m' := by
  match stmts with
  | [] => exact .pure (covered_refl _ _ m)
  | s :: rest =>
    have here := free.down (block.item_sub_itemsFrom 0 k)
    refine (ends_checkStmt (block.stmt k) s here).bind fun _ m₁ first => ?_
    have restFree :=
      (free.down (block.itemsFrom_succ_sub 0 k)).grown first.grown (block.item_apart_rest 0 k).symm
    exact (ends_checkStmts block (k + 1) rest restFree).imp fun _ m₂ later =>
      first.trans later (block.item_sub_itemsFrom 0 k) (block.itemsFrom_succ_sub 0 k)

end

end Expressions

theorem ends_checkBody (ctx : Context) {m : SiteMap ValueType} (method : Site) (k : Nat)
    (stmts : List Stmt) (free : m.Free (method.itemsFrom 2 k)) :
    Ends (checkBody ctx method k stmts) m fun _ m' =>
      Covered ctx.bound (method.itemsFrom 2 k) (Stmt.exprNodesFrom method.body k stmts)
        (Stmt.sitesFrom method.body k stmts) m m' := by
  induction stmts generalizing m k with
  | nil => exact .pure (covered_refl _ _ m)
  | cons s rest ih =>
    have here := free.down (method.item_sub_itemsFrom 2 k)
    refine (ends_checkStmt ctx (method.body k) s here).bind fun _ m₁ first => ?_
    have restFree := (free.down (method.itemsFrom_succ_sub 2 k)).grown first.grown
      (method.item_apart_rest 2 k).symm
    exact (ih (k + 1) restFree).imp fun _ m₂ later =>
      first.trans later (method.item_sub_itemsFrom 2 k) (method.itemsFrom_succ_sub 2 k)

theorem ends_methods (bound : Site → Option Decl) {m : SiteMap ValueType}
    (methods : List (Site × MethodDecl))
    (apart : methods.Pairwise fun a b => a.1.below.Apart b.1.below)
    (free : ∀ s ∈ methods, m.Free s.1.below) :
    Ends (methods.forM fun (site, d) => checkMethod bound site d) m fun _ m' =>
      Covered bound (fun _ => True)
        (methods.flatMap fun (site, d) => Stmt.exprNodesFrom site.body 0 d.body)
        (methods.flatMap fun (site, d) => Stmt.sitesFrom site.body 0 d.body) m m' := by
  induction methods generalizing m with
  | nil => exact .pure (covered_refl _ _ m)
  | cons s rest ih =>
    obtain ⟨site, d⟩ := s
    have ⟨here, later⟩ := List.forall_mem_cons.mp free
    have ⟨apartHere, apartLater⟩ := List.pairwise_cons.mp apart
    refine (ends_checkBody ⟨bound, .user site, d.head⟩ site 0 d.body
      (here.down (site.itemsFrom_sub 2 0))).bind
      fun _ m₁ first => ?_
    have restFree : ∀ t ∈ rest, m₁.Free t.1.below := fun t ht => (later t ht).grown first.grown
      ((apartHere t ht).symm.mono (.refl _) (site.itemsFrom_sub 2 0))
    exact (ih apartLater restFree).imp fun _ m₂ others =>
      first.trans others (fun _ _ => trivial) (fun _ _ => trivial)

/-- Whatever its log, a check of a program that comes to its end leaves types at all nodes. -/
theorem ends_check (bound : Site → Option Decl) (p : Program) :
    Ends (check bound p) {} fun _ m' =>
      Covered bound (fun _ => True) p.exprNodes p.stmtSites {} m' :=
  ends_methods bound p.sitedMethods p.sitedMethods_apart fun _ _ _ _ => rfl

end Typing

end JamCompiler

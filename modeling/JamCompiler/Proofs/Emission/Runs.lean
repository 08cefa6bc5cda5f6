import JamCompiler.Proofs.Emission.Trees

/-!
# Runs of emission

A run of emission that comes to its end makes the code of a tree. Code is made from what is placed
when it is made; what is placed later changes nothing of it, so it is the code of the tree for
everything that is known in the end.
-/

namespace JamCompiler

open Pass

namespace Emission

/-- What code can be made stays the same code. -/
structure Kept {α : Type} (x y : Emitted α) : Prop where
  ok : ∀ {a}, x = .ok a → y = .ok a

namespace Kept

variable {α β : Type} {x y : Emitted α} {f g : α → Emitted β}

theorem refl (x : Emitted α) : Kept x x := ⟨id⟩

theorem error (e : Failure) (y : Emitted α) : Kept (.error e) y := ⟨nofun⟩

theorem bind (h : Kept x y) (h' : ∀ a, Kept (f a) (g a)) : Kept (x >>= f) (y >>= g) := by
  refine ⟨fun made => ?_⟩
  cases first : x with
  | error e =>
    rw [first] at made
    cases made
  | ok a =>
    rw [first] at made
    rw [h.ok first]
    exact (h' a).ok made

theorem map {γ : Type} {k : α → γ} (h : Kept x y) : Kept (x.map k) (y.map k) := by
  refine ⟨fun made => ?_⟩
  cases first : x with
  | error e =>
    rw [first] at made
    cases made
  | ok a =>
    rw [first] at made
    rw [h.ok first]
    exact made

end Kept

/-- What is known in one environment is known in the other. -/
structure Env.Le (env env' : Env) : Prop where
  bound : env'.bound = env.bound
  located : ∀ {s l}, env.located s = some l → env'.located s = some l
  layout : ∀ {s l}, env.layout s = some l → env'.layout s = some l

section Le

variable {env env' : Env} (le : env.Le env')
include le

theorem kept_locationOf (d : Decl) : Kept (locationOf env d) (locationOf env' d) := by
  refine ⟨fun {l} found => ?_⟩
  unfold locationOf at found ⊢
  cases home : d.home with
  | predefined =>
    simp only [home] at found
    cases found
  | user site =>
    simp only [home] at found ⊢
    cases place : env.located site with
    | none =>
      rw [place] at found
      cases found
    | some l' =>
      rw [place] at found
      rw [le.located place]
      exact found

theorem kept_valueDecl (site : Site) (pos : Nat) :
    Kept (valueDecl env site pos) (valueDecl env' site pos) := by
  unfold valueDecl
  rw [le.bound]
  exact .refl _

theorem kept_emitRef (site : Site) (r : Reference) :
    Kept (emitRef env site r) (emitRef env' site r) := by
  induction r generalizing site with
  | this => exact .refl _
  | unknown => exact .error _ _
  | ident name pos =>
    refine (kept_valueDecl le site pos).bind fun d => (kept_locationOf le d).bind fun l => ?_
    cases l <;> exact .refl _
  | qualified qualifier name pos ih =>
    refine (kept_valueDecl le site pos).bind fun d => ?_
    split
    · exact (ih _).bind fun _ => .refl _
    · refine (kept_locationOf le d).bind fun l => ?_
      cases l with
      | object k => exact (ih _).bind fun _ => .refl _
      | static | frame | code => exact .refl _

theorem kept_targetDecl (site : Site) (r : Reference) :
    Kept (targetDecl env site r) (targetDecl env' site r) := by
  unfold targetDecl
  rw [le.bound]
  exact .refl _

theorem kept_callee (target : Site) (pos : Nat) :
    Kept (callee env target pos) (callee env' target pos) := by
  unfold callee
  rw [le.bound]
  exact .refl _

theorem kept_invocationTree (target : Site) (r : Reference) (method : Home × MethodHead)
    (given : Nat) (args : Tree) :
    Kept (invocationTree env target r method given args)
      (invocationTree env' target r method given args) := by
  unfold invocationTree
  dsimp only
  split
  · exact .refl _
  · split
    · exact .refl _
    · cases r with
      | qualified qualifier => exact (kept_emitRef le _ qualifier).bind fun _ => .refl _
      | this | ident | unknown => exact .refl _

theorem kept_emitNew (site : Site) (type : TypeExpr) (pos : Nat) :
    Kept (emitNew env site type pos) (emitNew env' site type pos) := by
  unfold emitNew
  rw [le.bound]
  cases type with
  | base | array | unknown => exact .error _ _
  | named name =>
    match env.bound site.className with
    | some (.cls ⟨.user cls, _, _⟩) =>
      dsimp only
      cases found : env.layout cls with
      | none => exact .error _ _
      | some l =>
        rw [le.layout found]
        exact .refl _
    | none | some (.cls ⟨.predefined, _, _⟩) | some (.field ..) | some (.method ..)
    | some (.param ..) | some (.var ..) => exact .error _ _

end Le

mutual

theorem kept_tree {env env' : Env} (le : env.Le env') (site : Site) (e : Expr) :
    Kept (e.tree env site) (e.tree env' site) := by
  match e with
  | .int .. | .bool .. | .null .. => exact .refl _
  | .unknown .. => exact .refl _
  | .unary op operand pos =>
    simp only [Expr.tree]
    refine .map ?_
    cases unaryPrim? op with
    | none => exact .refl _
    | some p => exact (kept_tree le _ operand).bind fun _ => .refl _
  | .binary op left right pos =>
    simp only [Expr.tree]
    refine .map ?_
    cases binaryPrim? op with
    | none => exact .refl _
    | some p =>
      exact (kept_tree le _ left).bind fun _ => (kept_tree le _ right).bind fun _ => .refl _
  | .ref r pos => exact .map ((kept_emitRef le _ r).bind fun _ => .refl _)
  | .index r i pos =>
    exact .map ((kept_emitRef le _ r).bind fun _ => (kept_tree le _ i).bind fun _ => .refl _)
  | .call r args pos =>
    exact .map ((kept_callee le _ pos).bind fun method => (kept_argTrees le _ 0 _ args).bind
      fun given => kept_invocationTree le _ r method _ given)
  | .newObject type pos => exact .map ((kept_emitNew le _ type pos).bind fun _ => .refl _)
  | .newArray element size pos => exact .map ((kept_tree le _ size).bind fun _ => .refl _)

theorem kept_argTrees {env env' : Env} (le : env.Le env') (call : Site) (k taken : Nat)
    (args : List Expr) :
    Kept (Expr.argTrees env call k taken args) (Expr.argTrees env' call k taken args) := by
  match args, taken with
  | [], taken => exact .refl _
  | e :: rest, 0 => exact .refl _
  | e :: rest, taken + 1 =>
    exact (kept_tree le _ e).bind fun _ => (kept_argTrees le call (k + 1) taken rest).bind
      fun _ => .refl _

end

section Le

variable {env env' : Env} (le : env.Le env')
include le

theorem kept_storeTree (site : Site) (r : Reference) (value : Expr) :
    Kept (storeTree env site.target r (value.tree env site.value))
      (storeTree env' site.target r (value.tree env' site.value)) := by
  refine (kept_targetDecl le _ r).bind fun d => ?_
  dsimp only
  refine (kept_locationOf le d).bind fun l => ?_
  have inner := kept_tree le site.value value
  cases l with
  | static | frame => exact inner.bind fun _ => .refl _
  | code => exact .error _ _
  | object k =>
    cases r with
    | this | ident | unknown => exact inner.bind fun _ => .refl _
    | qualified qualifier =>
      exact (kept_emitRef le _ qualifier).bind fun _ => inner.bind fun _ => .refl _

theorem kept_callTree (site : Site) (r : Reference) (args : List Expr) (pos : Nat) :
    Kept (callTree env site r args pos) (callTree env' site r args pos) :=
  (kept_callee le _ pos).bind fun method => (kept_argTrees le site 0 _ args).bind fun given =>
    (kept_invocationTree le _ r method _ given).bind fun _ => .refl _

theorem kept_elementStoreTree (site : Site) (target : Reference) (index value : Expr) :
    Kept (elementStoreTree env site target index value)
      (elementStoreTree env' site target index value) :=
  (kept_emitRef le _ target).bind fun _ => (kept_tree le _ index).bind fun _ =>
    (kept_tree le _ value).bind fun _ => .refl _

end Le

/-- What is known where so much is placed. -/
def Placing.env (bound : Site → Option Decl) (p : Placing) : Env :=
  ⟨bound, p.locations.get?, p.layouts.get?⟩

/-- Things were placed at sites in a region. -/
structure Placing.Grown (region : Region) (p p' : Placing) : Prop where
  locations : SiteMap.Grown region p.locations p'.locations
  layouts : p'.layouts = p.layouts

namespace Placing

variable {p p' p'' : Placing} {a b : Region} {bound : Site → Option Decl} {env : Env}

theorem Grown.refl (region : Region) (p : Placing) : Grown region p p := ⟨.refl _ _, rfl⟩

theorem Grown.trans (h : Grown a p p') (h' : Grown a p' p'') : Grown a p p'' :=
  ⟨h.locations.trans h'.locations, h'.layouts.trans h.layouts⟩

theorem Grown.up (h : Grown a p p') (sub : a.Sub b) : Grown b p p' :=
  ⟨h.locations.up sub, h.layouts⟩

/-- What is known in the end includes what was known before. -/
theorem Grown.le (h : Grown a p p') (le : (p'.env bound).Le env) : (p.env bound).Le env where
  bound := le.bound
  located found := le.located (h.locations.kept found)
  layout found := by
    refine le.layout ?_
    change p'.layouts.get? _ = _
    rw [h.layouts]
    exact found

end Placing

/-- A step places things in a region and makes the code of a tree, which is the same for everything
that is known in the end. -/
abbrev Makes {α β : Type} (bound : Site → Option Decl) (x : Emitting α) (p : Placing)
    (region : Region) (tree : Env → Emitted β) (code : β → α) : Prop :=
  Ends x p fun a p' => p.Grown region p' ∧
    ∃ t, a = code t ∧ ∀ env, (p'.env bound).Le env → tree env = .ok t

section Makes

variable {α β γ δ : Type} {bound : Site → Option Decl} {x : Emitting α} {f : α → Emitting γ}
variable {p : Placing} {a b : Region} {tree : Env → Emitted β} {code : β → α}

theorem makes_pure {c : α} {t : β} (same : c = code t) (p : Placing) (region : Region) :
    Makes bound (pure c) p region (fun _ => .ok t) code :=
  Ends.pure ⟨.refl _ _, t, same, fun _ _ => rfl⟩

/-- Code that depends on where things live now. -/
theorem makes_emitted {made : Env → Emitted α} (same : ∀ env, made env = (tree env).map code)
    (kept : ∀ {env env'}, env.Le env' → Kept (tree env) (tree env')) (p : Placing)
    (region : Region) : Makes bound (emitted bound made) p region tree code := by
  refine Ends.bind (Ends.getOwn (P := fun q p' => p = q ∧ p = p') ⟨rfl, rfl⟩) ?_
  rintro _ _ ⟨rfl, rfl⟩
  have here := same (p.env bound)
  cases now : tree (p.env bound) with
  | error e =>
    rw [now] at here
    change made ⟨bound, p.locations.get?, p.layouts.get?⟩ = .error e at here
    rw [here]
    cases e with
    | fault => exact .fatal
    | missingArgument => exact .throw
  | ok t =>
    rw [now] at here
    change made ⟨bound, p.locations.get?, p.layouts.get?⟩ = .ok (code t) at here
    rw [here]
    exact Ends.pure ⟨.refl _ _, t, rfl, fun env le => (kept le).ok now⟩

theorem Makes.bind {tree' : β → Env → Emitted δ} {code' : δ → γ}
    (first : Makes bound x p a tree code) (sub : a.Sub b) (next : ∀ t p', p.Grown a p' →
      Makes bound (f (code t)) p' b (tree' t) code') :
    Makes bound (x >>= f) p b (fun env => tree env >>= fun t => tree' t env) code' := by
  refine Ends.bind first ?_
  rintro - p' ⟨grown, t, rfl, known⟩
  refine (next t p' grown).imp ?_
  rintro d p'' ⟨grown', t', rfl, known'⟩
  refine ⟨(grown.up sub).trans grown', t', rfl, fun env le => ?_⟩
  simp only [known env (grown'.le le)]
  exact known' env le

theorem Makes.map {k : β → δ} {code' : δ → α} (h : Makes bound x p a tree code)
    (same : ∀ t, code t = code' (k t)) :
    Makes bound x p a (fun env => (tree env).map k) code' := by
  refine h.imp ?_
  rintro _ p' ⟨grown, t, rfl, known⟩
  refine ⟨grown, k t, same t, fun env le => ?_⟩
  simp only [known env le]
  rfl

theorem Makes.up (h : Makes bound x p a tree code) (sub : a.Sub b) :
    Makes bound x p b tree code :=
  h.imp fun _ _ ⟨grown, known⟩ => ⟨grown.up sub, known⟩

theorem Makes.after {y : Emitting δ} {g : δ → Emitting α}
    (first : Ends y p fun _ p' => p.Grown a p') (sub : a.Sub b)
    (next : ∀ c p', Makes bound (g c) p' b tree code) : Makes bound (y >>= g) p b tree code :=
  Ends.bind first fun c p' grown => (next c p').imp fun _ _ ⟨grown', known⟩ =>
    ⟨(grown.up sub).trans grown', known⟩

/-- A place for something that has none. -/
theorem ends_place (site : Site) (l : Location) (name : String) (pos : Nat) (p : Placing) :
    Ends (place site l name pos) p fun _ p' => p.locations.get? site = none ∧
      p' = { p with locations := p.locations.fill site l } := by
  refine Ends.bind (Ends.getOwn (P := fun q p' => p = q ∧ p = p') ⟨rfl, rfl⟩) ?_
  rintro _ _ ⟨rfl, rfl⟩
  cases free : p.locations.get? site with
  | some _ => exact .fatal
  | none => exact Ends.modifyOwn ⟨rfl, rfl⟩

theorem grown_place (site : Site) (l : Location) (name : String) (pos : Nat) (p : Placing) :
    Ends (place site l name pos) p fun _ p' => p.Grown site.below p' :=
  (ends_place site l name pos p).imp fun _ _ ⟨_, same⟩ =>
    same ▸ ⟨SiteMap.grown_fill _ _ _, rfl⟩

end Makes

section Statements

variable (ctx : Context)

theorem makes_emitExpr (base : Nat) (site : Site) (e : Expr) (p : Placing) (region : Region) :
    Makes ctx.bound (emitted ctx.bound (emitExpr · base site e)) p region
      (fun env => e.tree env site) (Tree.code base) :=
  makes_emitted (fun env => emitExpr_eq env base site e) (fun le => kept_tree le site e) p region

/-- The code at an address of a tree with the number of locals that it declares. -/
def codeAt (base : Nat) (t : Tree × Nat) : Code × Nat := (t.1.code base, t.2)

mutual

/-- The code of a statement is that of its tree. -/
theorem makes_emitStmt (base slot : Nat) (site : Site) (s : Stmt) (p : Placing) :
    Makes ctx.bound (emitStmt ctx base slot site s) p site.below
      (fun env => s.tree env ctx.arity slot site) (codeAt base) := by
  have marked {x : Emitting (Code × Nat)} {tree : Env → Emitted (Tree × Nat)}
      (h : Makes ctx.bound x p site.below tree (codeAt base)) :
      Makes ctx.bound x p site.below
        (fun env => (tree env).map fun t => (.marked (.stmt slot) t.1, t.2)) (codeAt base) :=
    h.map fun _ => rfl
  match s with
  | .unknown .. => exact .fatal
  | .block stmts pos =>
    refine marked ((makes_emitStmts base slot site 0 stmts p).bind (site.itemsFrom_sub 0 0)
      fun t p' _ => makes_pure ?_ p' _)
    simp only [codeAt]
    split <;> simp [Tree.code]
  | .declare var init pos =>
    refine marked (.after (grown_place site.var (.frame slot) var.name var.pos p)
      (site.child_sub 0) fun _ p₁ => ?_)
    exact (makes_emitExpr ctx base site.init init p₁ _).bind (.refl _) fun t p' _ =>
      makes_pure (by rfl) p' _
  | .assign target value pos =>
    have made : Makes ctx.bound (emitted ctx.bound fun env => emitStore env base site.target target
        fun b => emitExpr env b site.value value) p site.below
        (fun env => storeTree env site.target target (value.tree env site.value))
        (Tree.code base) :=
      makes_emitted (fun env => emitStore_eq env base site.target target fun b =>
        emitExpr_eq env b site.value value) (fun le => kept_storeTree le site target value) p _
    exact marked (made.bind (.refl _) fun t p' _ => makes_pure (by rfl) p' _)
  | .assignIndex target index value pos =>
    have made : Makes ctx.bound (emitted ctx.bound fun env =>
        emitElementStore env base site target index value) p site.below
        (fun env => elementStoreTree env site target index value) (Tree.code base) :=
      makes_emitted (fun env => emitElementStore_eq env base site target index value)
        (fun le => kept_elementStoreTree le site target index value) p _
    exact marked (made.bind (.refl _) fun t p' _ => makes_pure (by rfl) p' _)
  | .call method args pos =>
    have made : Makes ctx.bound (emitted ctx.bound fun env =>
        emitCallStmt env base site method args pos) p site.below
        (fun env => callTree env site method args pos) (Tree.code base) :=
      makes_emitted (fun env => emitCallStmt_eq env base site method args pos)
        (fun le => kept_callTree le site method args pos) p _
    exact marked (made.bind (.refl _) fun t p' _ => makes_pure (by rfl) p' _)
  | .ret none pos => exact marked (makes_pure (by rfl) p _)
  | .ret (some value) pos =>
    exact marked ((makes_emitExpr ctx base site.value value p _).bind (.refl _) fun t p' _ =>
      makes_pure (by rfl) p' _)
  | .ifThen cond body pos =>
    refine marked ((makes_emitExpr ctx base site.cond cond p site.below).bind (.refl _)
      fun test p' _ => ?_)
    refine (makes_emitStmt _ slot site.thenBranch body p').bind (site.child_sub 1)
      fun t p'' _ => makes_pure ?_ p'' _
    simp [codeAt, Tree.code]
  | .ifElse cond body other pos =>
    refine marked ((makes_emitExpr ctx base site.cond cond p site.below).bind (.refl _)
      fun test p₁ _ => ?_)
    refine (makes_emitStmt _ slot site.thenBranch body p₁).bind (site.child_sub 1) fun t p₂ _ => ?_
    refine (makes_emitStmt _ (slot + t.2) site.elseBranch other p₂).bind (site.child_sub 2)
      fun t' p₃ _ => makes_pure ?_ p₃ _
    simp [codeAt, Tree.code]
  | .loop cond body pos =>
    refine marked ((makes_emitStmt _ slot site.thenBranch body p).bind (site.child_sub 1)
      fun t p' _ => ?_)
    refine (makes_emitExpr ctx _ site.cond cond p' site.below).bind (.refl _)
      fun test p'' _ => makes_pure ?_ p'' _
    simp [codeAt, Tree.code]

theorem makes_emitStmts (base slot : Nat) (block : Site) (k : Nat) (stmts : List Stmt)
    (p : Placing) : Makes ctx.bound (emitStmts ctx base slot block k stmts) p (block.itemsFrom 0 k)
      (fun env => Stmt.trees env ctx.arity slot block.stmt k stmts) (codeAt base) := by
  match stmts with
  | [] => exact makes_pure (by rfl) p _
  | s :: rest =>
    refine (makes_emitStmt base slot (block.stmt k) s p).bind (block.item_sub_itemsFrom 0 k)
      fun t p' _ => ?_
    refine ((makes_emitStmts _ (slot + t.2) block (k + 1) rest p').up
      (block.itemsFrom_succ_sub 0 k)).bind (.refl _) fun t' p'' _ => makes_pure ?_ p'' _
    simp [codeAt, Tree.code]

end

/-- So is the code of a body. -/
theorem makes_emitBody (base slot : Nat) (method : Site) (k : Nat) (stmts : List Stmt)
    (p : Placing) : Makes ctx.bound (emitBody ctx base slot method k stmts) p (method.itemsFrom 2 k)
      (fun env => Stmt.trees env ctx.arity slot method.body k stmts) (fun t => t.1.code base) := by
  induction stmts generalizing base slot k p with
  | nil => exact makes_pure (by rfl) p _
  | cons s rest ih =>
    refine (makes_emitStmt ctx base slot (method.body k) s p).bind (method.item_sub_itemsFrom 2 k)
      fun t p' _ => ?_
    refine ((ih _ (slot + t.2) (k + 1) p').up (method.itemsFrom_succ_sub 2 k)).bind (.refl _)
      fun t' p'' _ => makes_pure ?_ p'' _
    simp [Tree.code]

end Statements

/-- The code of some methods from an address on, each known to live where its code is. -/
def MadeOf (env : Env) (base : Nat) : List (Site × MethodDecl) → Code → Prop
  | [], code => code = []
  | (site, m) :: rest, code => ∃ t more, m.tree env site = .ok t ∧
      env.located site = some (.code base) ∧ code = t.code base ++ more ∧
      MadeOf env (base + t.size) rest more

theorem grown_placeParams (method : Site) (arity k : Nat) (params : List ParamDecl) (p : Placing) :
    Ends (placeParams method arity k params) p fun _ p' => p.Grown method.below p' := by
  induction params generalizing k p with
  | nil => exact Ends.pure (.refl _ _)
  | cons q rest ih =>
    refine Ends.bind (grown_place _ _ _ _ p) fun _ p' grown => (ih (k + 1) p').imp ?_
    exact fun _ _ grown' => (grown.up (Site.below_sub (method.suffix_item 1 k))).trans grown'

theorem ends_emitMethod (bound : Site → Option Decl) (base : Nat) (site : Site) (m : MethodDecl)
    (p : Placing) : Ends (emitMethod bound base site m) p fun code p' => p.Grown site.below p' ∧
      ∃ t, code = t.code base ∧ ∀ env, (p'.env bound).Le env →
        m.tree env site = .ok t ∧ env.located site = some (.code base) := by
  refine Ends.bind (grown_placeParams site m.head.params.length 0 m.head.params p)
    fun _ p₁ grown => ?_
  refine Ends.bind (ends_place site (.code base) m.head.name m.head.pos p₁) ?_
  rintro _ p₂ ⟨free, rfl⟩
  have body := makes_emitBody ⟨bound, m.head.params.length⟩ base linkageSize site 0 m.body
    { p₁ with locations := p₁.locations.fill site (.code base) }
  refine body.imp ?_
  rintro _ p₃ ⟨grown', t, rfl, known⟩
  have inside := grown'.up (site.itemsFrom_sub 2 0)
  have self : p₁.Grown site.below { p₁ with locations := p₁.locations.fill site (.code base) } :=
    ⟨SiteMap.grown_fill _ _ _, rfl⟩
  refine ⟨(grown.trans self).trans inside, t.1, rfl, fun env le => ⟨?_, ?_⟩⟩
  · have made := known env le
    dsimp only at made
    rw [MethodDecl.tree, made]
    rfl
  · exact le.located (inside.locations.kept (SiteMap.get?_fill_free free _))

theorem ends_emitMethods (bound : Site → Option Decl) (base : Nat)
    (methods : List (Site × MethodDecl)) (p : Placing) :
    Ends (emitMethods bound base methods) p fun code p' => p.Grown (fun _ => True) p' ∧
      ∀ env, (p'.env bound).Le env → MadeOf env base methods code := by
  induction methods generalizing base p with
  | nil => exact Ends.pure ⟨.refl _ _, fun _ _ => rfl⟩
  | cons s rest ih =>
    obtain ⟨site, m⟩ := s
    refine Ends.bind (ends_emitMethod bound base site m p) ?_
    rintro _ p' ⟨grown, t, rfl, known⟩
    refine Ends.bind (ih (base + (t.code base).length) p') ?_
    rintro more p'' ⟨grown', made⟩
    refine Ends.pure ⟨(grown.up fun _ _ => trivial).trans grown', fun env le => ?_⟩
    obtain ⟨tree, located⟩ := known env (grown'.le le)
    rw [Tree.length_code] at made
    exact ⟨t, more, tree, located, rfl, made env le⟩

end Emission

end JamCompiler

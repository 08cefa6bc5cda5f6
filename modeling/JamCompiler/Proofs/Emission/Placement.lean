import JamCompiler.Proofs.Emission.Ready
import JamCompiler.Proofs.Emission.Runs

/-!
# Runs of placement

Emission gives every variable its place before there is code that uses it, and gives no place twice.
So in a program that has passed all checks it comes to its end, unless a class is instantiated that
has no layout. The invariant is that the region of what is to come is free and that everything in
force has its place.
-/

namespace JamCompiler

open Pass Typing

mutual

/-- How many locals a statement declares in the block that it is in. -/
def Stmt.declares : Stmt → Nat
  | .declare .. => 1
  | .ifThen _ body _ | .loop _ body _ => body.declares
  | .ifElse _ body other _ => body.declares + other.declares
  | .block .. | .assign .. | .assignIndex .. | .call .. | .ret .. | .unknown .. => 0

def Stmt.allDeclare : List Stmt → Nat
  | [] => 0
  | s :: rest => s.declares + Stmt.allDeclare rest

end

mutual

/-- Whether the variables that are declared in a statement live in the slots from one on. -/
def Stmt.Placed (located : Site → Option Location) (slot : Nat) (site : Site) : Stmt → Prop
  | .declare .. => located site.var = some (.frame slot)
  | .block stmts _ => Stmt.AllPlaced located slot site.stmt 0 stmts
  | .ifThen _ body _ | .loop _ body _ => body.Placed located slot site.thenBranch
  | .ifElse _ body other _ => body.Placed located slot site.thenBranch ∧
      other.Placed located (slot + body.declares) site.elseBranch
  | .assign .. | .assignIndex .. | .call .. | .ret .. | .unknown .. => True

/-- The statements of a list from the `k`th on, whose sites are given. -/
def Stmt.AllPlaced (located : Site → Option Location) (slot : Nat) (sites : Nat → Site) (k : Nat) :
    List Stmt → Prop
  | [] => True
  | s :: rest => s.Placed located slot (sites k) ∧
      Stmt.AllPlaced located (slot + s.declares) sites (k + 1) rest

end

mutual

/-- What is placed stays where it is. -/
theorem Stmt.Placed.mono {located located' : Site → Option Location}
    (le : ∀ {s l}, located s = some l → located' s = some l) {slot : Nat} {site : Site} (s : Stmt)
    (h : s.Placed located slot site) : s.Placed located' slot site := by
  match s with
  | .declare .. => exact le h
  | .block stmts _ => exact Stmt.AllPlaced.mono le stmts h
  | .ifThen _ body _ | .loop _ body _ => exact Stmt.Placed.mono le body h
  | .ifElse _ body other _ => exact ⟨Stmt.Placed.mono le body h.1, Stmt.Placed.mono le other h.2⟩
  | .assign .. | .assignIndex .. | .call .. | .ret .. | .unknown .. => trivial

theorem Stmt.AllPlaced.mono {located located' : Site → Option Location}
    (le : ∀ {s l}, located s = some l → located' s = some l) {slot : Nat} {sites : Nat → Site}
    {k : Nat} (stmts : List Stmt) (h : Stmt.AllPlaced located slot sites k stmts) :
    Stmt.AllPlaced located' slot sites k stmts := by
  match stmts with
  | [] => trivial
  | s :: rest => exact ⟨Stmt.Placed.mono le s h.1, Stmt.AllPlaced.mono le rest h.2⟩

end

namespace Emission

section Knows

variable {env env' : Env} {p : Program} {locals locals' : Scope} {d : Decl}

theorem placed_mono (le : env.Le env') (h : d.Placed env) : d.Placed env' := by
  obtain ⟨l, located, fits⟩ := h
  exact ⟨l, (kept_locationOf le d).ok located, fits⟩

theorem Env.Knows.mono (h : env.Knows p locals) (le : env.Le env') : env'.Knows p locals where
  fields k c hk i f hf := placed_mono le (h.fields k c hk i f hf)
  layouts k hk := by
    obtain ⟨l, found⟩ := h.layouts k hk
    exact ⟨l, le.layout found⟩
  locals q hq := placed_mono le (h.locals q hq)

theorem Env.Knows.sub (h : env.Knows p locals) (sub : locals' ⊆ locals) : env.Knows p locals' :=
  ⟨h.fields, h.layouts, fun q hq => h.locals q (sub hq)⟩

/-- One more variable that has its place. -/
theorem Env.Knows.declare (h : env.Knows p locals) {q : String × Decl} (placed : q.2.Placed env) :
    env.Knows p (q :: locals) :=
  ⟨h.fields, h.layouts, List.forall_mem_cons.mpr ⟨placed, h.locals⟩⟩

end Knows

end Emission

/-- The faults that may be left in a program that has passed all checks: in its entry, a result
without a return, and an instance of a class that has none. -/
def CodeFault.Expected : CodeFault → Prop
  | noMain | manyMains | mainNotStatic | mainPrivate | mainNotVoid | mainParams | mainParamType _
  | missingReturn _ | cannotInstantiate _ => True
  | placedTwice _ | notPlaced _ | unknownUnary _ | unknownBinary _ | notValue | notVariable
  | callTarget | foreign .. => False

/-- A fault of generation that may be left. -/
def Fault.Expected (fault : Fault) : Prop := ∃ f : CodeFault, fault = .code f ∧ f.Expected

namespace Emission

section Steps

variable {bound : Site → Option Decl} {p : Placing} {site : Site}

theorem concludes_place (free : p.locations.get? site = none) (l : Location) (name : String)
    (pos : Nat) : Concludes Fault.Expected (place site l name pos) p True fun _ p' =>
      p' = { p with locations := p.locations.fill site l } := by
  refine .after (.getOwn (P := fun q p' => p = q ∧ p = p') ⟨rfl, rfl⟩) ?_
  rintro _ _ ⟨rfl, rfl⟩
  rw [free]
  exact .modifyOwn rfl

/-- Code that depends on where things live now. -/
theorem concludes_emitted {α : Type} {made : Env → Emitted α} {cond : Prop}
    (h : Builds (made (p.env bound)) cond) :
    Concludes Fault.Expected (emitted bound made) p cond fun _ p' => p' = p := by
  refine .after (.getOwn (P := fun q p' => p = q ∧ p = p') ⟨rfl, rfl⟩) ?_
  rintro _ _ ⟨rfl, rfl⟩
  change Builds (made ⟨bound, p.locations.get?, p.layouts.get?⟩) cond at h
  by_cases hc : cond
  · obtain ⟨a, made⟩ := h.ok hc
    rw [made]
    exact (Concludes.pure (P := fun _ p' => p' = p) rfl).congr (iff_of_true trivial hc)
  · obtain ⟨cls, pos, made⟩ := h.fails hc
    rw [made]
    exact (Concludes.fatal (P := fun _ p' => p' = p) ⟨_, rfl, trivial⟩).congr (iff_of_false id hc)

end Steps

end Emission

/-- Whether a use has code where everything in force has its place. -/
def Use.Able (bound : Site → Option Decl) (prog : Program) (u : Use) : Prop :=
  ∀ env : Emission.Env, env.bound = bound → env.Knows prog u.inForce → u.Ready env

namespace Emission

/-- Places were given in a region, and everything that may be used where some locals are in force
has one. -/
structure Placing.Extended (bound : Site → Option Decl) (prog : Program) (region : Region)
    (locals : Scope) (p p' : Placing) : Prop where
  grown : p.Grown region p'
  knows : (p'.env bound).Knows prog locals

section Statements

variable {bound : Site → Option Decl} {prog : Program} {names : Resolving.Context} {p : Placing}

theorem concludes_expr {locals : Scope} {site : Site} {e : Expr} (base : Nat)
    (able : ∀ u ∈ e.uses names locals site, u.Able bound prog)
    (typed : (e.type? bound site).isSome) (knows : (p.env bound).Knows prog locals) :
    Concludes Fault.Expected (emitted bound (emitExpr · base site e)) p (AllInstantiable e.news)
      fun _ p' => p' = p := by
  refine concludes_emitted ?_
  rw [emitExpr_eq]
  exact .map
    (builds_tree e (fun u hu => able u hu _ rfl (knows.sub (e.inForce_of_uses u hu))) typed)

theorem knows_of_grown {locals : Scope} {region : Region} {p' : Placing}
    (knows : (p.env bound).Knows prog locals) (grown : p.Grown region p') :
    (p'.env bound).Knows prog locals :=
  knows.mono (grown.le ⟨rfl, id, id⟩)

/-- A statement that declares nothing. -/
theorem concludes_plain {x : Emitting Code} {cond : Prop} {locals : Scope} {s : Stmt} {site : Site}
    {slot : Nat} (h : Concludes Fault.Expected x p cond fun _ p' => p' = p)
    (knows : (p.env bound).Knows prog (s.localsAfter locals site)) (none : s.declares = 0)
    (placed : s.Placed p.locations.get? slot site) :
    Concludes Fault.Expected (x >>= fun code => pure (code, 0)) p cond fun r p' =>
      p.Extended bound prog site.below (s.localsAfter locals site) p' ∧ r.2 = s.declares ∧
        s.Placed p'.locations.get? slot site := by
  refine h.before ?_
  rintro code _ rfl
  exact .pure ⟨⟨.refl _ _, knows⟩, none.symm, placed⟩

mutual

/-- A statement of a program that has passed all checks is emitted if all that it instantiates can
be. -/
theorem concludes_emitStmt {ctx : Typing.Context} {arity : Nat} {locals : Scope} {p : Placing}
    (base slot : Nat) {site : Site} (s : Stmt)
    (able : ∀ u ∈ s.uses names locals site, u.Able ctx.bound prog) (typed : s.WellTyped ctx site)
    (knows : (p.env ctx.bound).Knows prog locals) (free : p.locations.Free site.below) :
    Concludes Fault.Expected (emitStmt ⟨ctx.bound, arity⟩ base slot site s) p
      (AllInstantiable s.news)
      fun r p' => p.Extended ctx.bound prog site.below (s.localsAfter locals site) p' ∧
        r.2 = s.declares ∧ s.Placed p'.locations.get? slot site := by
  match s with
  | .unknown .. => exact typed.elim
  | .block stmts pos =>
    refine (concludes_emitStmts base slot stmts able typed knows
      (free.down (site.itemsFrom_sub 0 0))).before ?_
    rintro r p' ⟨grown, -, placed⟩
    exact .pure ⟨⟨grown.up (site.itemsFrom_sub 0 0), knows_of_grown knows grown⟩, rfl, placed⟩
  | .declare var init pos =>
    obtain ⟨given, typed, -⟩ := typed
    have inInit := (List.forall_mem_cons.mp (List.forall_mem_cons.mp able).2).2
    have freeVar := free site.var (site.suffix_child 0)
    refine .after (concludes_place freeVar (.frame slot) var.name var.pos) ?_
    rintro _ p' rfl
    have located := SiteMap.get?_fill_free freeVar (Location.frame slot)
    have grown :
        p.Grown site.below { p with locations := p.locations.fill site.var (.frame slot) } :=
      ⟨(SiteMap.grown_fill _ _ _).up (site.child_sub 0), rfl⟩
    have inside := (knows_of_grown knows grown).declare (q := (var.name, .var site.var var))
      ⟨_, locationOf_eq rfl located, nofun⟩
    refine (concludes_expr base inInit (Option.isSome_of_mem typed) inside).before ?_
    rintro code _ rfl
    exact .pure ⟨⟨grown, inside⟩, rfl, located⟩
  | .assign target value pos =>
    obtain ⟨expected, typedTarget, given, typedValue, -⟩ := typed
    have ⟨here, inValue⟩ := List.forall_mem_cons.mp able
    refine concludes_plain (concludes_emitted ?_) knows rfl trivial
    have ready := here (p.env ctx.bound) rfl knows
    rw [emitStore_eq _ _ _ _ fun b => emitExpr_eq _ b site.value value]
    exact .map (ready.2 expected typedTarget _ _ (builds_tree value
      (fun u hu => inValue u hu _ rfl (knows.sub (value.inForce_of_uses u hu)))
      (Option.isSome_of_mem typedValue)))
  | .assignIndex target index value pos =>
    obtain ⟨type, typedTarget, i, typedIndex, given, typedValue, -⟩ := typed
    have ⟨here, inRest⟩ := List.forall_mem_cons.mp able
    have ⟨inIndex, inValue⟩ := List.forall_mem_append.mp inRest
    refine concludes_plain (concludes_emitted ?_) knows rfl trivial
    rw [emitElementStore_eq]
    exact .map (builds_elementStore (here (p.env ctx.bound) rfl knows)
      (fun u hu => inIndex u hu _ rfl (knows.sub (index.inForce_of_uses u hu)))
      (fun u hu => inValue u hu _ rfl (knows.sub (value.inForce_of_uses u hu)))
      (Option.isSome_of_mem (valueType_of_targetType typedTarget)) (Option.isSome_of_mem typedIndex)
      (Option.isSome_of_mem typedValue))
  | .call r args pos =>
    obtain ⟨d, found, types, typedArgs, typed⟩ := typed
    have ⟨here, inArgs⟩ := List.forall_mem_cons.mp able
    refine concludes_plain (concludes_emitted ?_) knows rfl trivial
    rw [emitCallStmt_eq]
    exact .map (builds_callTree (here (p.env ctx.bound) rfl knows)
      (fun u hu => inArgs u hu _ rfl (knows.sub (Expr.inForce_of_argUses args u hu)))
      found typedArgs typed)
  | .ret none pos =>
    exact (Concludes.pure ⟨⟨.refl _ _, knows⟩, rfl, trivial⟩).congr (iff_of_true trivial nofun)
  | .ret (some value) pos =>
    obtain ⟨given, typed, -⟩ := typed
    refine (concludes_expr base able (Option.isSome_of_mem typed) knows).before ?_
    rintro code _ rfl
    exact .pure ⟨⟨.refl _ _, knows⟩, rfl, trivial⟩
  | .ifThen cond body pos =>
    obtain ⟨⟨given, typedCond, -⟩, typedBody⟩ := typed
    have ⟨inCond, inRest⟩ := List.forall_mem_append.mp able
    have ⟨_, inBody⟩ := List.forall_mem_cons.mp inRest
    refine ((concludes_expr base inCond (Option.isSome_of_mem typedCond) knows).bind ?_).congr
      List.forall_mem_append.symm
    rintro test _ rfl
    refine (concludes_emitStmt _ slot body inBody typedBody knows
      (free.down (site.child_sub 1))).before ?_
    rintro r p' ⟨extended, declared, placed⟩
    exact .pure ⟨⟨extended.grown.up (site.child_sub 1), knows_of_grown knows extended.grown⟩,
      declared, placed⟩
  | .ifElse cond body other pos =>
    obtain ⟨⟨given, typedCond, -⟩, typedBody, typedOther⟩ := typed
    have ⟨inCond, inRest⟩ := List.forall_mem_append.mp able
    have ⟨inBody, inOther⟩ := List.forall_mem_append.mp (List.forall_mem_cons.mp inRest).2
    have ⟨_, inOther⟩ := List.forall_mem_cons.mp inOther
    have branches : AllInstantiable body.news ∧ AllInstantiable other.news ↔
      AllInstantiable (body.news ++ other.news) := List.forall_mem_append.symm
    refine ((concludes_expr base inCond (Option.isSome_of_mem typedCond) knows).bind
      (d := AllInstantiable (body.news ++ other.news)) ?_).congr List.forall_mem_append.symm
    rintro test _ rfl
    refine ((concludes_emitStmt _ slot body inBody typedBody knows
      (free.down (site.child_sub 1))).bind ?_).congr branches
    rintro r p₁ ⟨extended, declared, placed⟩
    have later := knows_of_grown knows extended.grown
    have free' := (free.down (site.child_sub 2)).grown extended.grown.locations
      (Site.children_apart (by decide))
    refine (concludes_emitStmt _ (slot + r.2) other inOther typedOther later free').before ?_
    rintro r' p₂ ⟨extended', declared', placed'⟩
    refine .pure
      ⟨⟨(extended.grown.up (site.child_sub 1)).trans (extended'.grown.up (site.child_sub 2)),
      knows_of_grown later extended'.grown⟩, by simp only [declared, declared', Stmt.declares], ?_⟩
    rw [declared] at placed'
    exact ⟨placed.mono extended'.grown.locations.kept, placed'⟩
  | .loop cond body pos =>
    obtain ⟨⟨given, typedCond, -⟩, typedBody⟩ := typed
    have ⟨inCond, inRest⟩ := List.forall_mem_append.mp able
    have ⟨_, inBody⟩ := List.forall_mem_cons.mp inRest
    refine ((concludes_emitStmt _ slot body inBody typedBody knows
      (free.down (site.child_sub 1))).bind ?_).congr List.forall_mem_append.symm
    rintro r p' ⟨extended, declared, placed⟩
    have later := knows_of_grown knows extended.grown
    refine (concludes_expr _ inCond (Option.isSome_of_mem typedCond) later).before ?_
    rintro test _ rfl
    exact .pure ⟨⟨extended.grown.up (site.child_sub 1), later⟩, declared, placed⟩

theorem concludes_emitStmts {ctx : Typing.Context} {arity : Nat} {locals : Scope} {p : Placing}
    (base slot : Nat) {block : Site} {k : Nat} (stmts : List Stmt)
    (able : ∀ u ∈ Stmt.usesFrom names locals block.stmt k stmts, u.Able ctx.bound prog)
    (typed : Stmt.AllWellTyped ctx block.stmt k stmts) (knows : (p.env ctx.bound).Knows prog locals)
    (free : p.locations.Free (block.itemsFrom 0 k)) :
    Concludes Fault.Expected (emitStmts ⟨ctx.bound, arity⟩ base slot block k stmts) p
      (AllInstantiable (Stmt.allNews stmts))
      fun r p' => p.Grown (block.itemsFrom 0 k) p' ∧
        r.2 = Stmt.allDeclare stmts ∧ Stmt.AllPlaced p'.locations.get? slot block.stmt k stmts := by
  match stmts with
  | [] =>
    exact (Concludes.pure ⟨.refl _ _, rfl, trivial⟩).congr (iff_of_true trivial nofun)
  | s :: rest =>
    have ⟨here, inRest⟩ := List.forall_mem_append.mp able
    refine ((concludes_emitStmt base slot s here typed.1 knows
      (free.down (block.item_sub_itemsFrom 0 k))).bind ?_).congr List.forall_mem_append.symm
    rintro r p₁ ⟨extended, declared, placed⟩
    have free' := (free.down (block.itemsFrom_succ_sub 0 k)).grown extended.grown.locations
      (block.item_apart_rest 0 k).symm
    refine (concludes_emitStmts _ (slot + r.2) rest inRest typed.2 extended.knows free').before ?_
    rintro r' p₂ ⟨grown, declared', placed'⟩
    refine .pure ⟨(extended.grown.up (block.item_sub_itemsFrom 0 k)).trans
      (grown.up (block.itemsFrom_succ_sub 0 k)),
      by simp only [declared, declared', Stmt.allDeclare], ?_⟩
    rw [declared] at placed'
    exact ⟨placed.mono grown.locations.kept, placed'⟩

end

/-- The statements of a body are emitted as those of a block are. -/
theorem concludes_emitBody (ctx : Typing.Context) {arity : Nat} {locals : Scope} {p : Placing}
    (base slot : Nat) {method : Site} {k : Nat} (stmts : List Stmt)
    (able : ∀ u ∈ Stmt.usesFrom names locals method.body k stmts, u.Able ctx.bound prog)
    (typed : Stmt.AllWellTyped ctx method.body k stmts)
    (knows : (p.env ctx.bound).Knows prog locals) (free : p.locations.Free (method.itemsFrom 2 k)) :
    Concludes Fault.Expected (emitBody ⟨ctx.bound, arity⟩ base slot method k stmts) p
      (AllInstantiable (Stmt.allNews stmts)) fun _ p' => p.Grown (method.itemsFrom 2 k) p' ∧
        Stmt.AllPlaced p'.locations.get? slot method.body k stmts := by
  induction stmts generalizing base slot k locals p with
  | nil => exact (Concludes.pure ⟨.refl _ _, trivial⟩).congr (iff_of_true trivial nofun)
  | cons s rest ih =>
    have ⟨here, inRest⟩ := List.forall_mem_append.mp able
    refine ((concludes_emitStmt base slot s here typed.1 knows
      (free.down (method.item_sub_itemsFrom 2 k))).bind ?_).congr List.forall_mem_append.symm
    rintro r p₁ ⟨extended, declared, placed⟩
    have free' := (free.down (method.itemsFrom_succ_sub 2 k)).grown extended.grown.locations
      (method.item_apart_rest 2 k).symm
    refine (ih _ (slot + r.2) inRest typed.2 extended.knows free').before ?_
    rintro r' p₂ ⟨grown, placed'⟩
    refine .pure ⟨(extended.grown.up (method.item_sub_itemsFrom 2 k)).trans
      (grown.up (method.itemsFrom_succ_sub 2 k)), ?_⟩
    rw [declared] at placed'
    exact ⟨placed.mono grown.locations.kept, placed'⟩

end Statements

end Emission

/-- Whether the parameters and variables of a method live where they should. -/
structure MethodDecl.Placed (located : Site → Option Location) (site : Site)
    (m : MethodDecl) : Prop where
  params : ∀ (i : Nat) (prm : ParamDecl), m.head.params[i]? = some prm →
    located (site.param i) = some (.frame (i - m.head.params.length))
  body : Stmt.AllPlaced located Emission.linkageSize site.body 0 m.body

namespace Emission

section Methods

variable {bound : Site → Option Decl} {prog : Program}

/-- Parameters get the places below the frame. -/
theorem concludes_placeParams {method : Site} {arity k : Nat} {params : List ParamDecl}
    {locals : Scope} {p : Placing} (knows : (p.env bound).Knows prog locals)
    (free : p.locations.Free (method.itemsFrom 1 k)) :
    Concludes Fault.Expected (placeParams method arity k params) p True fun _ p' =>
      p.Grown (method.itemsFrom 1 k) p' ∧
      (p'.env bound).Knows prog (MethodDecl.paramScope method k locals params) ∧
      ∀ (i : Nat) (prm : ParamDecl), params[i]? = some prm →
        p'.locations.get? (method.param (k + i)) = some (.frame ((k + i : Nat) - arity)) := by
  induction params generalizing k locals p with
  | nil => exact .pure ⟨.refl _ _, knows, nofun⟩
  | cons q rest ih =>
    have here : method.itemsFrom 1 k (method.param k) := ⟨k, Nat.le_refl k, List.suffix_refl _⟩
    have freeHere := free _ here
    refine .after (concludes_place freeHere (.frame (k - arity)) q.name q.pos) ?_
    rintro _ _ rfl
    have located := SiteMap.get?_fill_free freeHere (Location.frame (k - arity))
    have filled := SiteMap.grown_fill p.locations (method.param k) (.frame (k - arity))
    have grown : p.Grown (method.itemsFrom 1 k)
        { p with locations := p.locations.fill (method.param k) (.frame (k - arity)) } :=
      ⟨filled.up (method.item_sub_itemsFrom 1 k), rfl⟩
    have inside := (knows_of_grown knows grown).declare (q := (q.name, .param (method.param k) q))
      ⟨_, locationOf_eq rfl located, nofun⟩
    have free' := (free.down (method.itemsFrom_succ_sub 1 k)).grown filled
      (method.item_apart_rest 1 k).symm
    refine (ih inside free').mono ?_
    rintro _ p' ⟨grown', knows', placed⟩
    refine ⟨grown.trans (grown'.up (method.itemsFrom_succ_sub 1 k)), knows', fun i prm hi => ?_⟩
    cases i with
    | zero => exact grown'.locations.kept located
    | succ i =>
      have later := placed i prm hi
      rwa [Nat.add_assoc, Nat.add_comm 1 i] at later

/-- Whether the body of a method is well typed and has uses that there is code for. -/
structure Emittable (bound : Site → Option Decl) (prog : Program) (s : Site × MethodDecl) :
    Prop where
  body : ∃ (names : Resolving.Context) (head : MethodHead),
    (∀ u ∈ Stmt.usesFrom names (s.2.scope s.1) s.1.body 0 s.2.body, u.Able bound prog) ∧
      Stmt.AllWellTyped ⟨bound, .user s.1, head⟩ s.1.body 0 s.2.body

theorem concludes_emitMethod {s : Site × MethodDecl} {p : Placing} (base : Nat)
    (emittable : Emittable bound prog s) (knows : (p.env bound).Knows prog [])
    (free : p.locations.Free s.1.below) :
    Concludes Fault.Expected (emitMethod bound base s.1 s.2) p
      (AllInstantiable (Stmt.allNews s.2.body)) fun _ p' => p.Grown s.1.below p' ∧
        s.2.Placed p'.locations.get? s.1 := by
  obtain ⟨site, m⟩ := s
  obtain ⟨names, head, able, typed⟩ := emittable.body
  dsimp only at able typed free
  refine .after (concludes_placeParams knows (free.down (site.itemsFrom_sub 1 0))) ?_
  rintro _ p₁ ⟨grown, knows, params⟩
  have freeHere : p₁.locations.get? site = none := by
    rw [grown.locations.same, free site (List.suffix_refl site)]
    rintro ⟨j, -, below⟩
    have longer := below.length_le
    simp only [Site.item, List.length_cons] at longer
    omega
  refine .after (concludes_place freeHere (.code base) m.head.name m.head.pos) ?_
  rintro _ _ rfl
  have self : p₁.Grown site.below { p₁ with locations := p₁.locations.fill site (.code base) } :=
    ⟨SiteMap.grown_fill _ _ _, rfl⟩
  have freeBody : (p₁.locations.fill site (.code base)).Free (site.itemsFrom 2 0) := by
    rintro t ⟨j, le, below⟩
    have other : t ≠ site := by
      rintro rfl
      have longer := below.length_le
      simp only [Site.item, List.length_cons] at longer
      omega
    rw [SiteMap.get?_fill_of_ne _ _ other, grown.locations.same]
    · exact free t ((site.suffix_item 2 j).trans below)
    · rintro ⟨i, -, below'⟩
      have apart : Site.Apart (site.item 1 i) (site.item 2 j) := Site.apart_item (by simp)
      exact apart t below' below
  refine (concludes_emitBody ⟨bound, .user site, head⟩ base linkageSize m.body able typed
    (knows_of_grown knows self) freeBody).mono ?_
  rintro _ p₂ ⟨grown', placed⟩
  have whole := grown'.up (site.itemsFrom_sub 2 0)
  refine ⟨((grown.up (site.itemsFrom_sub 1 0)).trans self).trans whole, fun i prm hi => ?_, placed⟩
  have there := params i prm hi
  rw [Nat.zero_add] at there
  exact whole.locations.kept (self.locations.kept there)

/-- The methods of a list that have nothing in common below them. -/
theorem concludes_emitMethods {methods : List (Site × MethodDecl)} {p : Placing} (base : Nat)
    (emittable : ∀ s ∈ methods, Emittable bound prog s)
    (apart : methods.Pairwise fun a b => a.1.below.Apart b.1.below)
    (knows : (p.env bound).Knows prog []) (free : ∀ s ∈ methods, p.locations.Free s.1.below) :
    Concludes Fault.Expected (emitMethods bound base methods) p
      (∀ s ∈ methods, AllInstantiable (Stmt.allNews s.2.body)) fun _ p' =>
        p.Grown (fun _ => True) p' ∧ ∀ s ∈ methods, s.2.Placed p'.locations.get? s.1 := by
  induction methods generalizing base p with
  | nil => exact (Concludes.pure ⟨.refl _ _, nofun⟩).congr (iff_of_true trivial nofun)
  | cons s rest ih =>
    obtain ⟨here, later⟩ := List.pairwise_cons.mp apart
    have ⟨now, inRest⟩ := List.forall_mem_cons.mp emittable
    have ⟨freeHere, freeRest⟩ := List.forall_mem_cons.mp free
    refine ((concludes_emitMethod base now knows freeHere).bind
      (d := ∀ s ∈ rest, AllInstantiable (Stmt.allNews s.2.body)) ?_).congr
      (by rw [List.forall_mem_cons])
    rintro code p₁ ⟨grown, placed⟩
    refine (ih (base + code.length) inRest later (knows_of_grown knows grown) fun t ht =>
      (freeRest t ht).grown grown.locations (here t ht).symm).before ?_
    rintro more p₂ ⟨grown', placed'⟩
    refine .pure ⟨(grown.up fun _ _ => trivial).trans grown',
      List.forall_mem_cons.mpr ⟨?_, placed'⟩⟩
    exact ⟨fun i prm hi => grown'.locations.kept (placed.params i prm hi),
      placed.body.mono grown'.locations.kept⟩

end Methods

end Emission

end JamCompiler

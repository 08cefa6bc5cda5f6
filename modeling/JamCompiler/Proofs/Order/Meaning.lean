import JamCompiler.Proofs.Naming.Table
import JamCompiler.Proofs.Naming.Use
import JamCompiler.Proofs.Order.Moving

/-!
# Meaning in moved classes

A name means the same after its class was moved: the uses in a moved tree are the moved uses, and
where what is known of classes, members and types is moved with them, a reference denotes what it
denoted before, moved to its new place. So a moved use is without fault exactly if the use is.
-/

namespace JamCompiler

namespace Scope

/-- The names of a scope with what they mean after a move. -/
def moved (g : Arrangement) (scope : Scope) : Scope := scope.map fun q => (q.1, q.2.moved g)

theorem lookup_moved (g : Arrangement) (scope : Scope) (name : String) :
    (Scope.moved g scope).lookup name = (scope.lookup name).map (Decl.moved g) :=
  lookup_map_snd (Decl.moved g) scope

end Scope

def Resolving.Context.moved (g : Arrangement) (ctx : Context) : Context :=
  { cls := ctx.cls.moved g
    isStatic := ctx.isStatic
    initializing := ctx.initializing.map (Decl.moved g) }

/-- A use in a class that is moved by `n` characters. -/
def Use.moved (g : Arrangement) (n : Nat) : Use → Use
  | type site t => type (site.moved g) (t.shift n)
  | ref ctx locals site r => ref (ctx.moved g) (Scope.moved g locals) (site.moved g) (r.shift n)
  | callee ctx locals site r =>
    callee (ctx.moved g) (Scope.moved g locals) (site.moved g) (r.shift n)
  | declare locals name => declare (Scope.moved g locals) name
  | branch body => branch (body.shift n)
  | foreign => foreign

section Uses

variable {g : Arrangement} {k : Nat}

mutual

/-- The uses in a moved expression are the moved uses. -/
theorem Expr.uses_shift (ctx : Resolving.Context) (locals : Scope) {s s' : Site}
    (at' : g.Moves k s s') (e : Expr) :
    (e.shift (g.distance k)).uses (ctx.moved g) (Scope.moved g locals) s' =
      (e.uses ctx locals s).map (Use.moved g (g.distance k)) := by
  match e with
  | .int .. | .bool .. | .null .. | .unknown .. => rfl
  | .unary _ operand _ => exact Expr.uses_shift ctx locals (at'.child 0) operand
  | .binary _ left right _ =>
    simp only [Expr.shift, Expr.uses, List.map_append, Site.left, Site.right,
      Expr.uses_shift ctx locals (at'.child 0) left,
      Expr.uses_shift ctx locals (at'.child 1) right]
  | .ref r _ =>
    simp only [Expr.shift, Expr.uses, List.map_cons, List.map_nil, Use.moved, Site.target,
      (at'.child 0).moved]
  | .index r i _ =>
    simp only [Expr.shift, Expr.uses, List.map_cons, Use.moved, Site.target, Site.index,
      (at'.child 0).moved, Expr.uses_shift ctx locals (at'.child 1) i]
  | .call method args _ =>
    simp only [Expr.shift, Expr.uses, List.map_cons, Use.moved, Site.target, (at'.child 0).moved,
      Expr.argUses_shift ctx locals at' 0 args]
  | .newObject type _ =>
    simp only [Expr.shift, Expr.uses, List.map_cons, List.map_nil, Use.moved, Site.type,
      (at'.child 0).moved]
  | .newArray element size _ =>
    simp only [Expr.shift, Expr.uses, List.map_cons, Use.moved, Site.type, Site.size,
      (at'.child 0).moved, Expr.uses_shift ctx locals (at'.child 1) size]

theorem Expr.argUses_shift (ctx : Resolving.Context) (locals : Scope) {s s' : Site}
    (at' : g.Moves k s s') (i : Nat) (args : List Expr) :
    Expr.argUses (ctx.moved g) (Scope.moved g locals) s' i (Expr.shiftAll (g.distance k) args) =
      (Expr.argUses ctx locals s i args).map (Use.moved g (g.distance k)) := by
  match args with
  | [] => rfl
  | e :: rest =>
    simp only [Expr.shiftAll, Expr.argUses, List.map_append, Site.arg,
      Expr.uses_shift ctx locals (at'.item 1 i) e, Expr.argUses_shift ctx locals at' (i + 1) rest]

end

/-- A moved variable at its moved site. -/
theorem Decl.moved_var {s s' : Site} (at' : g.Moves k s s') (var : VarDecl) :
    (Decl.var s var).moved g = .var s' (var.shift (g.distance k)) := by
  simp only [Decl.moved, at'.moved, at'.classNumber]

theorem Decl.moved_param {s s' : Site} (at' : g.Moves k s s') (param : ParamDecl) :
    (Decl.param s param).moved g = .param s' (param.shift (g.distance k)) := by
  simp only [Decl.moved, at'.moved, at'.classNumber]

theorem Scope.moved_cons_var (locals : Scope) {s s' : Site} (at' : g.Moves k s s') (var : VarDecl) :
    Scope.moved g ((var.name, .var s var) :: locals) =
      ((var.shift (g.distance k)).name, .var s' (var.shift (g.distance k))) ::
        Scope.moved g locals := by
  rw [← Decl.moved_var at' var]
  rfl

theorem Scope.moved_cons_param (locals : Scope) {s s' : Site} (at' : g.Moves k s s')
    (param : ParamDecl) :
    Scope.moved g ((param.name, .param s param) :: locals) =
      ((param.shift (g.distance k)).name, .param s' (param.shift (g.distance k))) ::
        Scope.moved g locals := by
  rw [← Decl.moved_param at' param]
  rfl

theorem Stmt.localsAfter_shift (locals : Scope) {s s' : Site} (at' : g.Moves k s s') (stmt : Stmt) :
    (stmt.shift (g.distance k)).localsAfter (Scope.moved g locals) s' =
      Scope.moved g (stmt.localsAfter locals s) := by
  cases stmt with
  | declare var init pos => exact (Scope.moved_cons_var locals (at'.child 0) var).symm
  | ret value pos => cases value <;> rfl
  | block | assign | assignIndex | call | ifThen | ifElse | loop | unknown => rfl

mutual

theorem Stmt.uses_shift (ctx : Resolving.Context) (locals : Scope) {s s' : Site}
    (at' : g.Moves k s s') (stmt : Stmt) :
    (stmt.shift (g.distance k)).uses (ctx.moved g) (Scope.moved g locals) s' =
      (stmt.uses ctx locals s).map (Use.moved g (g.distance k)) := by
  match stmt with
  | .ret none _ | .unknown .. => rfl
  | .block stmts _ =>
    exact Stmt.usesFrom_shift ctx locals (fun i => at'.item 0 i) 0 stmts
  | .declare var init _ =>
    have declared : g.Moves k s.var s'.var := at'.child 0
    have inner := Expr.uses_shift { ctx with initializing := some (.var s.var var) }
      ((var.name, .var s.var var) :: locals) (at'.child 1) init
    simp only [Resolving.Context.moved, Option.map_some, Decl.moved_var declared,
      Scope.moved_cons_var locals declared] at inner
    simp only [Stmt.shift, Stmt.uses, List.map_cons, Use.moved, Site.type, Site.init,
      (declared.child 0).moved]
    rw [← inner]
    rfl
  | .assign target value _ =>
    simp only [Stmt.shift, Stmt.uses, List.map_cons, Use.moved, Site.target, Site.value,
      (at'.child 0).moved, Expr.uses_shift ctx locals (at'.child 2) value]
  | .assignIndex target index value _ =>
    simp only [Stmt.shift, Stmt.uses, List.map_cons, List.map_append, Use.moved, Site.target,
      Site.index, Site.value, (at'.child 0).moved, Expr.uses_shift ctx locals (at'.child 1) index,
      Expr.uses_shift ctx locals (at'.child 2) value]
  | .call method args _ =>
    simp only [Stmt.shift, Stmt.uses, List.map_cons, Use.moved, Site.target, (at'.child 0).moved,
      Expr.argUses_shift ctx locals at' 0 args]
  | .ret (some value) _ => exact Expr.uses_shift ctx locals (at'.child 2) value
  | .ifThen cond body _ | .loop cond body _ =>
    simp only [Stmt.shift, Stmt.uses, List.map_cons, List.map_append, Use.moved, Site.cond,
      Site.thenBranch, Expr.uses_shift ctx locals (at'.child 0) cond,
      Stmt.uses_shift ctx locals (at'.child 1) body]
  | .ifElse cond body other _ =>
    simp only [Stmt.shift, Stmt.uses, List.map_cons, List.map_append, Use.moved, Site.cond,
      Site.thenBranch, Site.elseBranch, Expr.uses_shift ctx locals (at'.child 0) cond,
      Stmt.uses_shift ctx locals (at'.child 1) body, Stmt.uses_shift ctx locals (at'.child 2) other]

theorem Stmt.usesFrom_shift (ctx : Resolving.Context) (locals : Scope) {sites sites' : Nat → Site}
    (at' : ∀ i, g.Moves k (sites i) (sites' i)) (i : Nat) (stmts : List Stmt) :
    Stmt.usesFrom (ctx.moved g) (Scope.moved g locals) sites' i
        (Stmt.shiftAll (g.distance k) stmts) =
      (Stmt.usesFrom ctx locals sites i stmts).map (Use.moved g (g.distance k)) := by
  match stmts with
  | [] => rfl
  | stmt :: rest =>
    simp only [Stmt.shiftAll, Stmt.usesFrom, List.map_append,
      Stmt.uses_shift ctx locals (at' i) stmt, Stmt.localsAfter_shift locals (at' i) stmt,
      Stmt.usesFrom_shift ctx (stmt.localsAfter locals (sites i)) at' (i + 1) rest]

end

end Uses

namespace MethodDecl

variable {g : Arrangement} {k : Nat}

theorem paramScope_shift (locals : Scope) {s s' : Site} (at' : g.Moves k s s') (i : Nat)
    (params : List ParamDecl) :
    paramScope s' i (Scope.moved g locals) (params.map (·.shift (g.distance k))) =
      Scope.moved g (paramScope s i locals params) := by
  induction params generalizing locals i with
  | nil => rfl
  | cons p rest ih =>
    have param : g.Moves k (s.param i) (s'.param i) := at'.item 1 i
    have later := ih ((p.name, .param (s.param i) p) :: locals) (i + 1)
    rw [Scope.moved_cons_param locals param] at later
    exact later

theorem paramUses_shift (locals : Scope) {s s' : Site} (at' : g.Moves k s s') (i : Nat)
    (params : List ParamDecl) :
    paramUses s' i (Scope.moved g locals) (params.map (·.shift (g.distance k))) =
      (paramUses s i locals params).map (Use.moved g (g.distance k)) := by
  induction params generalizing locals i with
  | nil => rfl
  | cons p rest ih =>
    have param : g.Moves k (s.param i) (s'.param i) := at'.item 1 i
    have later := ih ((p.name, .param (s.param i) p) :: locals) (i + 1)
    rw [Scope.moved_cons_param locals param] at later
    simp only [List.map_cons, paramUses, Use.moved, Site.type, (param.child 0).moved]
    rw [← later]
    rfl

theorem scope_shift {s s' : Site} (at' : g.Moves k s s') (m : MethodDecl) :
    (m.shift (g.distance k)).scope s' = Scope.moved g (m.scope s) :=
  paramScope_shift [] at' 0 m.head.params

theorem bodyUses_shift {s s' : Site} (at' : g.Moves k s s') (cls : ClassRef) (m : MethodDecl) :
    (m.shift (g.distance k)).bodyUses (cls.moved g) s' =
      (m.bodyUses cls s).map (Use.moved g (g.distance k)) := by
  unfold bodyUses
  rw [scope_shift at']
  exact Stmt.usesFrom_shift (m.context cls) (m.scope s) (fun i => at'.item 2 i) 0 m.body

theorem uses_shift {s s' : Site} (at' : g.Moves k s s') (cls : ClassRef) (m : MethodDecl) :
    (m.shift (g.distance k)).uses (cls.moved g) s' =
      (m.uses cls s).map (Use.moved g (g.distance k)) := by
  have params := paramUses_shift [] at' 0 m.head.params
  simp only [uses, bodyUses_shift at', List.map_cons, List.map_append, Use.moved, Site.type,
    (at'.child 0).moved, ← params]
  rfl

end MethodDecl

namespace ClassDecl

variable {g : Arrangement} {k : Nat} {s s' : Site}

theorem ref_shift (at' : g.Moves k s s') (c : ClassDecl) :
    (c.shift (g.distance k)).ref s' = (c.ref s).moved g := by
  simp only [ref, shift, ClassRef.moved, Home.moved, Home.distance, at'.moved, at'.classNumber]

theorem fieldUses_shift (at' : g.Moves k s s') (i : Nat) (fields : List FieldDecl) :
    fieldUses s' i (fields.map (·.shift (g.distance k))) =
      (fieldUses s i fields).map (Use.moved g (g.distance k)) := by
  induction fields generalizing i with
  | nil => rfl
  | cons f rest ih =>
    simp only [List.map_cons, fieldUses, ih, Use.moved, Site.type, Site.field,
      ((at'.item 0 i).child 0).moved]
    rfl

theorem sitedMethods_shift (at' : g.Moves k s s') (c : ClassDecl) :
    (c.shift (g.distance k)).sitedMethods s' =
      (c.sitedMethods s).map fun m => (m.1.moved g, m.2.shift (g.distance k)) := by
  apply List.ext_getElem?
  intro i
  simp only [sitedMethods, shift, List.getElem?_mapIdx, List.getElem?_map, Option.map_map]
  congr 1
  funext m
  simp only [Function.comp_apply, Site.method, (at'.item 1 i).moved]

/-- The uses in a moved class are the moved uses. -/
theorem uses_shift (at' : g.Moves k s s') (c : ClassDecl) :
    (c.shift (g.distance k)).uses s' = (c.uses s).map (Use.moved g (g.distance k)) := by
  have methods : ∀ m ∈ c.sitedMethods s,
      (m.2.shift (g.distance k)).uses ((c.ref s).moved g) (m.1.moved g) =
        (m.2.uses (c.ref s) m.1).map (Use.moved g (g.distance k)) := by
    intro m hm
    obtain ⟨i, found⟩ := List.mem_iff_getElem?.mp hm
    simp only [sitedMethods, List.getElem?_mapIdx, Option.map_eq_some_iff] at found
    obtain ⟨m, -, rfl⟩ := found
    have moved := (at'.item 1 i).moved
    dsimp only [Site.method]
    rw [moved]
    exact MethodDecl.uses_shift (at'.item 1 i) (c.ref s) m
  unfold uses
  rw [sitedMethods_shift at', ref_shift at', List.map_append, List.map_flatMap, List.flatMap_map]
  congr 1
  · exact fieldUses_shift at' 0 c.fields
  · exact List.flatMap_congr methods

end ClassDecl

namespace ValueType

variable (g : Arrangement)

def moved : ValueType → ValueType
  | base type => base type
  | cls name ref => cls name (ref.map (ClassRef.moved g))
  | array element => array element.moved

theorem moved_injective : Function.Injective (moved g) := by
  intro t
  induction t with
  | base type => intro t' h; cases t' <;> simp_all [moved]
  | cls name ref =>
    intro t' h
    cases t' with
    | cls name' ref' =>
      simp only [moved, cls.injEq] at h
      rw [h.1, Option.map_injective (ClassRef.moved_injective g) h.2]
    | base | array => cases h
  | array element ih =>
    intro t' h
    cases t' with
    | array element' => rw [ih (array.inj h)]
    | base | cls => cases h

@[simp] theorem moved_ofClass (c : ClassRef) : (ofClass c).moved g = ofClass (c.moved g) := rfl

end ValueType

/-- What is known after a move is what was known before, in its new place. -/
structure Globals.Follows (g : Arrangement) (before after : Globals) : Prop where
  classes : ∀ name, after.classes name = (before.classes name).map (ClassRef.moved g)
  members : ∀ c name, after.members c name = (before.members c name).map (Decl.moved g)
  typeOf : ∀ d, after.typeOf (d.moved g) = (before.typeOf d).moved g

namespace TypeExpr

variable {g : Arrangement} {before after : String → Option ClassRef}
variable (classes : ∀ name, after name = (before name).map (ClassRef.moved g)) (n : Nat)

include classes in
theorem known_shift (t : TypeExpr) : (t.shift n).Known after ↔ t.Known before := by
  induction t with
  | base | unknown => exact Iff.rfl
  | named name pos => simp only [shift, Known, Identifier.shift, classes, Option.isSome_map]
  | array element pos ih => exact ih

include classes in
theorem typeIn_shift (t : TypeExpr) : (t.shift n).typeIn after = (t.typeIn before).moved g := by
  induction t with
  | base | unknown => rfl
  | named name pos => simp only [shift, typeIn, Identifier.shift, classes, ValueType.moved]
  | array element pos ih => simp only [shift, typeIn, ih, ValueType.moved]

theorem predefinedView_shift (t : TypeExpr) :
    (t.shift n).predefinedView = t.predefinedView := by
  induction t with
  | base | named | unknown => rfl
  | array element pos ih => simp only [shift, predefinedView, ih]

/-- The classes of the predefined environment do not move. -/
theorem moved_predefinedView (g : Arrangement) (t : TypeExpr) :
    t.predefinedView.moved g = t.predefinedView := by
  induction t with
  | base | unknown => rfl
  | named name pos =>
    simp only [predefinedView, ValueType.moved, ValueType.cls.injEq, true_and]
    cases found : Predefined.classes.find? (·.name == name.spelling) with
    | none => rfl
    | some c =>
      have known := List.mem_of_find?_eq_some found
      simp only [Predefined.classes, List.mem_cons, List.not_mem_nil, or_false] at known
      rcases known with rfl | rfl | rfl <;> rfl
  | array element pos ih => simp only [predefinedView, ValueType.moved, ih]

end TypeExpr

namespace Globals.Follows

variable {g : Arrangement} {a b : Globals} (follows : Follows g a b)
variable (ctx : Resolving.Context) (locals : Scope) (c : ClassRef) (name : String)

include follows

theorem lookup : b.lookup (ctx.moved g) (Scope.moved g locals) name =
    (a.lookup ctx locals name).map (Decl.moved g) := by
  simp only [Globals.lookup, Scope.lookup_moved, follows.members, follows.classes,
    Resolving.Context.moved, ClassRef.moved_name, Option.map_or, Option.map_map]
  rfl

theorem nameDecl : b.nameDecl? (ctx.moved g) (Scope.moved g locals) name =
    (a.nameDecl? ctx locals name).map (Decl.moved g) := by
  simp only [nameDecl?, follows.lookup]
  cases a.lookup ctx locals name with
  | none => rfl
  | some d =>
    have initializing : (ctx.moved g).initializing = some (d.moved g) ↔
        ctx.initializing = some d := by
      simp [Resolving.Context.moved]
    have static : (ctx.moved g).isStatic = ctx.isStatic := rfl
    simp only [Option.map_some, Option.bind_some, initializing, static, Decl.moved_isMember,
      Decl.moved_isStatic]
    split
    · rfl
    · split <;> rfl

theorem memberOf : b.memberOf? (ctx.moved g) (c.moved g) name =
    (a.memberOf? ctx c name).map (Decl.moved g) := by
  simp only [memberOf?, follows.members, ClassRef.moved_name]
  cases a.members c.name name with
  | none => rfl
  | some d =>
    simp only [Option.map_some, Option.bind_some, Decl.moved_isPrivate, Resolving.Context.moved,
      ne_eq, ClassRef.moved_inj]
    split <;> rfl

theorem memberOfClass : b.memberOfClass? (ctx.moved g) (c.moved g) name =
    (a.memberOfClass? ctx c name).map (Decl.moved g) := by
  simp only [memberOfClass?, follows.memberOf]
  cases a.memberOf? ctx c name with
  | none => rfl
  | some d =>
    simp only [Option.map_some, Option.bind_some, Decl.moved_isStatic]
    split <;> rfl

theorem memberOfValue (d : Decl) : b.memberOfValue? (ctx.moved g) (d.moved g) name =
    (a.memberOfValue? ctx d name).map (Option.map (Decl.moved g)) := by
  simp only [memberOfValue?, follows.typeOf]
  cases a.typeOf d with
  | base => rfl
  | array element =>
    simp only [ValueType.moved]
    split <;> rfl
  | cls text ref =>
    cases ref with
    | none => rfl
    | some c =>
      simp only [ValueType.moved, Option.map_some, follows.memberOf, Option.map_map]
      rfl

theorem memberAfter (qualifier : Reference) (n : Nat) (d : Decl) :
    b.memberAfter? (ctx.moved g) (qualifier.shift n) (d.moved g) name =
      (a.memberAfter? ctx qualifier d name).map (Option.map (Decl.moved g)) := by
  have own : (b.memberOf? (ctx.moved g) (ctx.moved g).cls name).map some =
      ((a.memberOf? ctx ctx.cls name).map some).map (Option.map (Decl.moved g)) := by
    have member := follows.memberOf ctx ctx.cls name
    simp only [Resolving.Context.moved] at member ⊢
    rw [member, Option.map_map, Option.map_map]
    rfl
  cases d with
  | method => cases qualifier <;> rfl
  | cls c =>
    cases qualifier with
    | this => exact own
    | ident | qualified | unknown =>
      simp only [memberAfter?, Decl.moved, Reference.shift, follows.memberOfClass, Option.map_map]
      rfl
  | field home d =>
    cases qualifier with
    | this => exact own
    | ident | qualified | unknown => exact follows.memberOfValue ctx name (.field home d)
  | param site d =>
    cases qualifier with
    | this => exact own
    | ident | qualified | unknown => exact follows.memberOfValue ctx name (.param site d)
  | var site d =>
    cases qualifier with
    | this => exact own
    | ident | qualified | unknown => exact follows.memberOfValue ctx name (.var site d)

/-- A moved reference denotes what the reference does, in its new place. -/
theorem denote (n : Nat) (r : Reference) :
    (r.shift n).denote? b (ctx.moved g) (Scope.moved g locals) =
      (r.denote? a ctx locals).map (Option.map (Decl.moved g)) := by
  induction r with
  | this pos =>
    simp only [Reference.shift, Reference.denote?, Resolving.Context.moved]
    split <;> rfl
  | ident name pos =>
    simp only [Reference.shift, Reference.denote?, Identifier.shift, follows.nameDecl,
      Option.map_map]
    rfl
  | qualified qualifier name pos ih =>
    simp only [Reference.shift, Reference.denote?, ih]
    cases qualifier.denote? a ctx locals with
    | none => rfl
    | some o =>
      cases o with
      | none => rfl
      | some d => exact follows.memberAfter ctx name.spelling qualifier n d
  | unknown kind pos => rfl

/-- A moved use is without fault exactly if the use is. -/
theorem ok (n : Nat) (u : Use) : (u.moved g n).Ok b ↔ u.Ok a := by
  cases u with
  | type site t => exact t.known_shift follows.classes n
  | ref ctx locals site r => simp only [Use.moved, Use.Ok, follows.denote, Option.isSome_map]
  | callee ctx locals site r =>
    simp only [Use.moved, Use.Ok, follows.denote]
    cases r.denote? a ctx locals with
    | none => simp
    | some o => cases o <;> simp
  | declare locals name => simp only [Use.moved, Use.Ok, Scope.lookup_moved, Option.map_eq_none_iff]
  | branch body =>
    simp only [Use.moved, Use.Ok]
    cases body with
    | ret value => cases value <;> rfl
    | block | declare | assign | assignIndex | call | ifThen | ifElse | loop | unknown => rfl
  | foreign => exact Iff.rfl

end Globals.Follows

end JamCompiler

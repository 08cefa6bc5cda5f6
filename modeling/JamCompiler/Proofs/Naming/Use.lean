import JamCompiler.Resolution

/-!
# Uses of names

What resolution has to settle, read off the tree without running anything. A use is a written
type, a reference, a declaration of a local variable, or a branch, each with the names that are in
force where it stands: the parameters and local variables declared before it in the blocks around
it, and beyond them the members of the class and the classes.

`Reference.denote?` gives a reference its meaning in such a place. It has three outcomes: there is
none, it is a declaration, or it stays open, because the type of the qualifier is a class that is
not known. `Globals` says what is known of classes, members and types; the definitions here take
it as given, whatever it is.
-/

namespace JamCompiler

open Resolving (Context)

/-- What is known outside a method. -/
structure Globals where
  classes : String → Option ClassRef
  members : String → String → Option Decl
  typeOf : Decl → ValueType

namespace Globals

variable (g : Globals) (ctx : Context) (locals : Scope)

/-- The declaration that a name has where it stands by itself. -/
def lookup (name : String) : Option Decl :=
  (locals.lookup name).or
    ((g.members ctx.cls.name name).or ((g.classes name).map .cls))

/-- The declaration that a name by itself may be used for. -/
def nameDecl? (name : String) : Option Decl :=
  (g.lookup ctx locals name).bind fun d =>
    if ctx.initializing = some d then none
    else if d.isMember && d.isStatic != ctx.isStatic then none
    else some d

/-- The member of a class that may be used. -/
def memberOf? (c : ClassRef) (name : String) : Option Decl :=
  (g.members c.name name).bind fun d => if d.isPrivate && c ≠ ctx.cls then none else some d

/-- The member after a class, which must be static. -/
def memberOfClass? (c : ClassRef) (name : String) : Option Decl :=
  (g.memberOf? ctx c name).bind fun d => if d.isStatic then some d else none

/-- The member after a variable: open if nothing is known of its class. -/
def memberOfValue? (owner : Decl) (name : String) : Option (Option Decl) :=
  match g.typeOf owner with
  | .array _ => if name = Predefined.length.name then some (some Predefined.length) else none
  | .cls _ (some c) => (g.memberOf? ctx c name).map some
  | .cls _ none => some none
  | .base _ => none

/-- The member after a qualifier. -/
def memberAfter? (qualifier : Reference) (base : Decl) (name : String) : Option (Option Decl) :=
  match base, qualifier with
  | .method .., _ => none
  | _, .this _ => (g.memberOf? ctx ctx.cls name).map some
  | .cls c, _ => (g.memberOfClass? ctx c name).map some
  | owner, _ => g.memberOfValue? ctx owner name

end Globals

namespace Reference

/-- What a reference denotes: nothing it may denote, or a declaration, or it is open. -/
def denote? (g : Globals) (ctx : Context) (locals : Scope) : Reference → Option (Option Decl)
  | this _ => if ctx.isStatic then none else some (some (.cls ctx.cls))
  | ident name _ => (g.nameDecl? ctx locals name.spelling).map some
  | qualified qualifier name _ =>
    match qualifier.denote? g ctx locals with
    | none => none
    | some none => some none
    | some (some base) => g.memberAfter? ctx qualifier base name.spelling
  | unknown .. => none

/-- A reference with the references that qualify it, and their sites. -/
def links (site : Site) : Reference → List (Site × Reference)
  | this pos => [(site, this pos)]
  | ident name pos => [(site, ident name pos)]
  | qualified qualifier name pos =>
    (site, qualified qualifier name pos) :: qualifier.links site.qualifier
  | unknown kind pos => [(site, unknown kind pos)]

/-- The sites that are bound with a reference: its own and that of its name. -/
def slots (site : Site) : Reference → List Site
  | this _ => [site]
  | ident .. | qualified .. => [site, site.name]
  | unknown .. => []

end Reference

namespace TypeExpr

/-- Whether all names of classes in a type are those of known classes. -/
def Known (classes : String → Option ClassRef) : TypeExpr → Prop
  | base .. => True
  | named name _ => (classes name.spelling).isSome
  | array element _ => element.Known classes
  | unknown .. => False

/-- The type that a written type stands for where names mean the classes given. -/
def typeIn (classes : String → Option ClassRef) : TypeExpr → ValueType
  | base type _ => .base type
  | named name _ => .cls name.spelling (classes name.spelling)
  | array element _ => .array (element.typeIn classes)
  | unknown .. => .base .unsupported

/-- The names of classes in a type with their sites. -/
def classNames (site : Site) : TypeExpr → List (Site × String)
  | base .. | unknown .. => []
  | named name _ => [(site.className, name.spelling)]
  | array element _ => element.classNames site.element

end TypeExpr

/-- What resolution has to settle at some place. -/
inductive Use
  | type (site : Site) (type : TypeExpr)
  | ref (ctx : Context) (locals : Scope) (site : Site) (ref : Reference)
  | callee (ctx : Context) (locals : Scope) (site : Site) (ref : Reference)
  | declare (locals : Scope) (name : String)
  | branch (body : Stmt)
  | foreign

namespace Use

/-- Whether a use is without fault. -/
def Ok (g : Globals) : Use → Prop
  | type _ t => t.Known g.classes
  | ref ctx locals _ r => (r.denote? g ctx locals).isSome
  | callee ctx locals _ r => ∃ o, r.denote? g ctx locals = some o ∧ ∀ d ∈ o, d.isMethod
  | declare locals name => locals.lookup name = none
  | branch body => body.isDeclaration = false
  | foreign => False

/-- Whether the names of a use are bound to what they mean, and to nothing where they are open. -/
def Bound (g : Globals) (bound : Site → Option Decl) : Use → Prop
  | type site t => ∀ n ∈ t.classNames site, bound n.1 = (g.classes n.2).map .cls
  | ref ctx locals site r | callee ctx locals site r =>
    ∀ l ∈ r.links site, ∀ slot ∈ l.2.slots l.1,
      bound slot = (l.2.denote? g ctx locals).join
  | _ => True

end Use

/-- The references that stand at a use, with their sites. -/
def Use.references : Use → List (Site × Reference)
  | ref _ _ site r | callee _ _ site r => [(site, r)]
  | _ => []

mutual

def Expr.uses (ctx : Context) (locals : Scope) (site : Site) : Expr → List Use
  | .int .. | .bool .. | .null .. => []
  | .unary _ operand _ => operand.uses ctx locals site.operand
  | .binary _ left right _ =>
    left.uses ctx locals site.left ++ right.uses ctx locals site.right
  | .ref r _ => [.ref ctx locals site.target r]
  | .index r i _ => .ref ctx locals site.target r :: i.uses ctx locals site.index
  | .call method args _ =>
    .callee ctx locals site.target method :: Expr.argUses ctx locals site 0 args
  | .newObject type _ => [.type site.type type]
  | .newArray element size _ => .type site.type element :: size.uses ctx locals site.size
  | .unknown .. => [.foreign]

/-- The uses in the arguments of a call from the `k`th on. -/
def Expr.argUses (ctx : Context) (locals : Scope) (call : Site) (k : Nat) :
    List Expr → List Use
  | [] => []
  | e :: rest => e.uses ctx locals (call.arg k) ++ Expr.argUses ctx locals call (k + 1) rest

end

namespace Stmt

/-- The local variables in force after a statement. -/
def localsAfter (locals : Scope) (site : Site) : Stmt → Scope
  | declare var _ _ => (var.name, .var site.var var) :: locals
  | _ => locals

mutual

def uses (ctx : Context) (locals : Scope) (site : Site) : Stmt → List Use
  | block stmts _ => usesFrom ctx locals site.stmt 0 stmts
  | declare var init _ =>
    let d := Decl.var site.var var
    .type site.var.type var.type :: .declare locals var.name ::
      init.uses { ctx with initializing := some d } ((var.name, d) :: locals) site.init
  | assign target value _ =>
    .ref ctx locals site.target target :: value.uses ctx locals site.value
  | assignIndex target index value _ =>
    .ref ctx locals site.target target ::
      (index.uses ctx locals site.index ++ value.uses ctx locals site.value)
  | call method args _ =>
    .callee ctx locals site.target method :: Expr.argUses ctx locals site 0 args
  | ret none _ => []
  | ret (some value) _ => value.uses ctx locals site.value
  | ifThen cond body _ =>
    cond.uses ctx locals site.cond ++ .branch body :: body.uses ctx locals site.thenBranch
  | ifElse cond body other _ =>
    cond.uses ctx locals site.cond ++ .branch body :: (body.uses ctx locals site.thenBranch ++
      .branch other :: other.uses ctx locals site.elseBranch)
  | loop cond body _ =>
    cond.uses ctx locals site.cond ++ .branch body :: body.uses ctx locals site.thenBranch
  | unknown .. => [.foreign]

/-- The uses in the statements of a list from the `k`th on, whose sites are given. -/
def usesFrom (ctx : Context) (locals : Scope) (sites : Nat → Site) (k : Nat) :
    List Stmt → List Use
  | [] => []
  | s :: rest =>
    s.uses ctx locals (sites k) ++ usesFrom ctx (s.localsAfter locals (sites k)) sites (k + 1) rest

end

end Stmt

namespace MethodDecl

/-- The parameters in force after those from the `k`th on. -/
def paramScope (method : Site) (k : Nat) (locals : Scope) : List ParamDecl → Scope
  | [] => locals
  | p :: rest => paramScope method (k + 1) ((p.name, .param (method.param k) p) :: locals) rest

def paramUses (method : Site) (k : Nat) (locals : Scope) : List ParamDecl → List Use
  | [] => []
  | p :: rest =>
    .type (method.param k).type p.type :: .declare locals p.name ::
      paramUses method (k + 1) ((p.name, .param (method.param k) p) :: locals) rest

/-- Where the references of a method stand. -/
def context (cls : ClassRef) (m : MethodDecl) : Context :=
  { cls := cls, isStatic := m.head.isStatic }

/-- The parameters of a method. -/
def scope (site : Site) (m : MethodDecl) : Scope := paramScope site 0 [] m.head.params

def bodyUses (cls : ClassRef) (site : Site) (m : MethodDecl) : List Use :=
  Stmt.usesFrom (m.context cls) (m.scope site) site.body 0 m.body

def uses (cls : ClassRef) (site : Site) (m : MethodDecl) : List Use :=
  .type site.type m.head.result :: (paramUses site 0 [] m.head.params ++ m.bodyUses cls site)

end MethodDecl

namespace ClassDecl

def fieldUses (cls : Site) (k : Nat) : List FieldDecl → List Use
  | [] => []
  | f :: rest => .type (cls.field k).type f.type :: fieldUses cls (k + 1) rest

def uses (site : Site) (c : ClassDecl) : List Use :=
  fieldUses site 0 c.fields ++
    (c.sitedMethods site).flatMap fun m => m.2.uses (c.ref site) m.1

theorem mem_of_mem_sitedMethods {c : ClassDecl} {cls site : Site} {m : MethodDecl}
    (h : (site, m) ∈ c.sitedMethods cls) : m ∈ c.methods := by
  simp only [sitedMethods, List.mem_iff_getElem?, List.getElem?_mapIdx, Option.map_eq_some_iff,
    Prod.mk.injEq] at h
  obtain ⟨k, m', found, -, rfl⟩ := h
  exact List.mem_of_getElem? found

theorem bodyUses_subset {c : ClassDecl} {cls site : Site} {m : MethodDecl}
    (h : (site, m) ∈ c.sitedMethods cls) : m.bodyUses (c.ref cls) site ⊆ c.uses cls := by
  intro u hu
  refine List.mem_append_right _ (List.mem_flatMap.mpr ⟨(site, m), h, ?_⟩)
  exact List.mem_cons_of_mem _ (List.mem_append_right _ hu)

end ClassDecl

/-- Members of a list with their numbers, which go on from the first one. -/
theorem mapIdx_cons_from {α β : Type} (f : Nat → α → β) (k : Nat) (a : α) (l : List α) :
    (a :: l).mapIdx (fun i b => f (k + i) b) = f k a :: l.mapIdx fun i b => f (k + 1 + i) b := by
  rw [List.mapIdx_cons]
  simp only [Nat.add_zero, Nat.add_assoc, Nat.add_comm 1]

namespace Program

variable {p : Program}

theorem mem_sitedClasses {s : Site × ClassDecl} :
    s ∈ p.sitedClasses ↔ ∃ k, p.classes[k]? = some s.2 ∧ s.1 = .classAt k := by
  obtain ⟨site, c⟩ := s
  simp only [sitedClasses, List.mem_iff_getElem?, List.getElem?_mapIdx, Option.map_eq_some_iff,
    Prod.mk.injEq]
  constructor
  · rintro ⟨k, c', h, rfl, rfl⟩
    exact ⟨k, h, rfl⟩
  · rintro ⟨k, h, rfl⟩
    exact ⟨k, c, h, rfl, rfl⟩

/-- Classes stand at different sites. -/
theorem nodup_sites (p : Program) : (p.sitedClasses.map Prod.fst).Nodup := by
  rw [List.Nodup, List.pairwise_map, sitedClasses, List.pairwise_iff_getElem]
  intro i j hi hj less
  simp only [List.getElem_mapIdx, Site.classAt, ne_eq, List.cons.injEq, and_true]
  exact Nat.ne_of_lt less

theorem mem_sitedMethods {s : Site × MethodDecl} : s ∈ p.sitedMethods ↔
    ∃ k, ∃ c : ClassDecl, p.classes[k]? = some c ∧ s ∈ c.sitedMethods (.classAt k) := by
  rw [sitedMethods, List.mem_flatMap]
  constructor
  · rintro ⟨⟨site, c⟩, hc, hs⟩
    obtain ⟨k, hk, rfl⟩ := mem_sitedClasses.mp hc
    exact ⟨k, c, hk, hs⟩
  · rintro ⟨k, c, hk, hs⟩
    exact ⟨(.classAt k, c), mem_sitedClasses.mpr ⟨k, hk, rfl⟩, hs⟩

end Program

end JamCompiler

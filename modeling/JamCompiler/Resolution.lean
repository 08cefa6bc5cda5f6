import JamCompiler.Compilation
import JamCompiler.ScopeTable

/-!
# Resolution

Binds the names of a program to their declarations. All classes and members are collected first,
so that they can be used before they are declared; then the bodies are resolved class by class. An
error leaves the offending name and everything that depends on it unbound.

What a qualified name refers to hangs on what its qualifier's type is bound to. The types of a
class's fields are bound when that class is resolved; where that has not happened yet, the name
stays unbound without an error.
-/

namespace JamCompiler

/-- The state of resolution. -/
structure Naming where
  table : ScopeTable := {}
  bindings : SiteMap Decl := {}

abbrev Resolving (α : Type) := Pass Naming α

/-- The classes of a program that a table knows by their names. -/
def Program.registered (p : Program) (t : ScopeTable) : List (Site × ClassDecl) :=
  p.sitedClasses.filter fun (site, c) => t.retrieveClass? c.name = some (c.ref site)

namespace Resolving

def reportName (fault : NameFault) (pos : Nat) : Resolving Unit := Pass.report (.naming fault) pos

def table : Resolving ScopeTable := return (← Pass.getOwn).table

def setTable (t : ScopeTable) : Resolving Unit := Pass.modifyOwn ({ · with table := t })

/-- What names are bound to so far. -/
def bound : Resolving (Site → Option Decl) := return (← Pass.getOwn).bindings.get?

/-- Binds the name at a site, unless it is bound, and answers what it is bound to. -/
def bind (site : Site) (d : Decl) : Resolving Decl := do
  Pass.modifyOwn fun n => { n with bindings := n.bindings.fill site d }
  return ((← bound) site).getD d

def openScope : Resolving Unit := do setTable (← table).openScope

def closeScope : Resolving Unit := do
  match (← table).closeScope? with
  | .ok t => setTable t
  | .error fault => Pass.fatal (.naming fault) 0

/-- Adds a declaration to the innermost scope, and answers whether it could. -/
def enter (d : Decl) (pos : Nat) : Resolving Bool := do
  match (← table).enter? d with
  | .ok t => setTable t; return true
  | .error fault => reportName fault pos; return false

def registerClass (c : ClassRef) : Resolving Bool := do
  match (← table).registerClass? c with
  | .ok t => setTable t; return true
  | .error fault => reportName fault c.pos; return false

def registerMember (c : ClassRef) (d : Decl) : Resolving Bool := do
  match (← table).registerMember? c d with
  | .ok t => setTable t; return true
  | .error previous =>
    Pass.note (.naming (.previousMember d.name)) previous.pos
    reportName (.duplicateMember d.name c.name) d.pos
    return false

def registerMembers (c : ClassRef) (members : List Decl) : Resolving Unit :=
  members.forM fun d => do let _ ← registerMember c d

def collectPredefined (c : ClassRef) : Resolving Unit := do
  let _ ← enter (.cls c) 0
  let _ ← registerClass c
  registerMembers c (Predefined.members c)

def collectClass (site : Site) (c : ClassDecl) : Resolving Unit := do
  let ref := c.ref site
  if ← registerClass ref then
    let _ ← enter (.cls ref) c.pos
    registerMembers ref (c.members site)

/-- Fills the registries, and leaves the scope of the classes open. -/
def collect (p : Program) : Resolving Unit := do
  Predefined.classes.forM collectPredefined
  openScope
  p.sitedClasses.forM fun (site, c) => collectClass site c

def resolveType (site : Site) : TypeExpr → Resolving Unit
  | .base .. => pure ()
  | .array element _ => resolveType site.element element
  | .named name pos => do
    match (← bound) site.className with
    | some _ => pure ()
    | none =>
      match (← table).retrieveClass? name.spelling with
      | some c => let _ ← bind site.className (.cls c)
      | none => reportName (.undeclaredClass name.spelling) pos
  | .unknown kind pos => Pass.fatal (.naming (.foreign .type kind)) pos

/-- Where a reference stands: in a method of a class, and perhaps in the initializer of a
variable. -/
structure Context where
  cls : ClassRef
  isStatic : Bool
  initializing : Option Decl := none

/-- The declaration of a name that stands by itself. -/
def resolveName (ctx : Context) (site : Site) (name : Identifier) : Resolving (Option Decl) := do
  match (← table).retrieve? name.spelling with
  | none =>
    reportName (.undeclared name.spelling) name.pos
    return none
  | some d =>
    if ctx.initializing = some d then
      reportName (.ownInitializer name.spelling) name.pos
      return none
    else if d.isMember && d.isStatic != ctx.isStatic then
      if ctx.isStatic then reportName (.instanceFromStatic name.spelling) name.pos
      else reportName (.unqualifiedStatic name.spelling ctx.cls.name) name.pos
      return none
    else return some (← bind site d)

/-- The member of a class that a name denotes, if it may be used here. -/
def memberOf (ctx : Context) (c : ClassRef) (name : Identifier) : Resolving (Option Decl) := do
  match (← table).retrieveMember? c.name name.spelling with
  | none =>
    reportName (.undeclaredMember name.spelling c.name) name.pos
    return none
  | some d =>
    if d.isPrivate && c ≠ ctx.cls then
      reportName (.privateMember name.spelling c.name) name.pos
      return none
    else return some d

/-- The member that a name denotes after a class. -/
def memberOfClass (ctx : Context) (c : ClassRef) (name : Identifier) :
    Resolving (Option Decl) := do
  match ← memberOf ctx c name with
  | none => return none
  | some d =>
    if d.isStatic then return some d
    else
      reportName (.instanceThroughClass name.spelling c.name) name.pos
      return none

/-- The member that a name denotes after a variable, which stands at `pos`. -/
def memberOfValue (ctx : Context) (owner : Decl) (pos : Nat) (name : Identifier) :
    Resolving (Option Decl) := do
  let type := owner.type (← bound)
  match type with
  | .array _ =>
    if name.spelling = Predefined.length.name then return some Predefined.length
    else
      reportName (.arrayMember name.spelling) name.pos
      return none
  | .cls _ (some c) => memberOf ctx c name
  | .cls _ none => return none
  | .base _ =>
    reportName (.noMembers owner.name type.text) pos
    return none

/-- The member that a name denotes after a qualifier. -/
def memberAfter (ctx : Context) (qualifier : Reference) (base : Decl) (name : Identifier) :
    Resolving (Option Decl) := do
  match base, qualifier with
  | .method _ head, _ =>
    reportName (.methodQualifier head.name) qualifier.pos
    return none
  | _, .this _ => memberOf ctx ctx.cls name
  | .cls c, _ => memberOfClass ctx c name
  | owner, _ => memberOfValue ctx owner qualifier.pos name

/-- Binds a reference, and answers its declaration if it has one. -/
def resolveRef (ctx : Context) (site : Site) : Reference → Resolving (Option Decl)
  | .this pos => do
    if ctx.isStatic then
      reportName .thisInStatic pos
      return none
    else return some (← bind site (.cls ctx.cls))
  | .ident name _ => do
    match ← resolveName ctx site.name name with
    | none => return none
    | some d => return some (← bind site d)
  | .qualified qualifier name _ => do
    match ← resolveRef ctx site.qualifier qualifier with
    | none => return none
    | some base =>
      match ← memberAfter ctx qualifier base name with
      | none => return none
      | some member =>
        let d ← bind site.name member
        return some (← bind site d)
  | .unknown kind pos => Pass.fatal (.naming (.foreign .reference kind)) pos

/-- Binds the method of a call. -/
def resolveMethod (ctx : Context) (site : Site) (ref : Reference) : Resolving Unit := do
  match ← resolveRef ctx site ref with
  | none => pure ()
  | some d => if !d.isMethod then reportName (.notMethod d.name) ref.pos

mutual

def resolveExpr (ctx : Context) (site : Site) : Expr → Resolving Unit
  | .int .. | .bool .. | .null .. => pure ()
  | .unary _ operand _ => resolveExpr ctx site.operand operand
  | .binary _ left right _ => do
    resolveExpr ctx site.left left
    resolveExpr ctx site.right right
  | .ref ref _ => do let _ ← resolveRef ctx site.target ref
  | .index ref index _ => do
    let _ ← resolveRef ctx site.target ref
    resolveExpr ctx site.index index
  | .call method args _ => do
    resolveMethod ctx site.target method
    resolveArgs ctx site 0 args
  | .newObject type _ => resolveType site.type type
  | .newArray element size _ => do
    resolveType site.type element
    resolveExpr ctx site.size size
  | .unknown kind pos => Pass.fatal (.naming (.foreign .expression kind)) pos

/-- The arguments of a call from the `k`th on. -/
def resolveArgs (ctx : Context) (call : Site) (k : Nat) : List Expr → Resolving Unit
  | [] => pure ()
  | e :: rest => do
    resolveExpr ctx (call.arg k) e
    resolveArgs ctx call (k + 1) rest

end

/-- A variable declaration as the whole of a branch would declare nothing of use. -/
def rejectDeclaration (branch : Stmt) : Resolving Unit := do
  if branch.isDeclaration then reportName .loneDeclaration branch.pos

mutual

def resolveStmt (ctx : Context) (site : Site) : Stmt → Resolving Unit
  | .block stmts _ => do
    openScope
    resolveStmts ctx site 0 stmts
    closeScope
  | .declare var init _ => do
    resolveType site.var.type var.type
    let d := Decl.var site.var var
    let _ ← enter d var.pos
    resolveExpr { ctx with initializing := some d } site.init init
  | .assign target value _ => do
    let _ ← resolveRef ctx site.target target
    resolveExpr ctx site.value value
  | .assignIndex target index value _ => do
    let _ ← resolveRef ctx site.target target
    resolveExpr ctx site.index index
    resolveExpr ctx site.value value
  | .call method args _ => do
    resolveMethod ctx site.target method
    resolveArgs ctx site 0 args
  | .ret none _ => pure ()
  | .ret (some value) _ => resolveExpr ctx site.value value
  | .ifThen cond body _ => do
    resolveExpr ctx site.cond cond
    rejectDeclaration body
    resolveStmt ctx site.thenBranch body
  | .ifElse cond body other _ => do
    resolveExpr ctx site.cond cond
    rejectDeclaration body
    resolveStmt ctx site.thenBranch body
    rejectDeclaration other
    resolveStmt ctx site.elseBranch other
  | .loop cond body _ => do
    resolveExpr ctx site.cond cond
    rejectDeclaration body
    resolveStmt ctx site.thenBranch body
  | .unknown kind pos => Pass.fatal (.naming (.foreign .statement kind)) pos

/-- The statements of a block from the `k`th on. -/
def resolveStmts (ctx : Context) (block : Site) (k : Nat) : List Stmt → Resolving Unit
  | [] => pure ()
  | s :: rest => do
    resolveStmt ctx (block.stmt k) s
    resolveStmts ctx block (k + 1) rest

end

/-- The parameters of a method from the `k`th on. -/
def resolveParams (method : Site) (k : Nat) : List ParamDecl → Resolving Unit
  | [] => pure ()
  | p :: rest => do
    let site := method.param k
    resolveType site.type p.type
    let _ ← enter (.param site p) p.pos
    resolveParams method (k + 1) rest

/-- The statements of a method from the `k`th on. -/
def resolveBody (ctx : Context) (method : Site) (k : Nat) : List Stmt → Resolving Unit
  | [] => pure ()
  | s :: rest => do
    resolveStmt ctx (method.body k) s
    resolveBody ctx method (k + 1) rest

def resolveMethodDecl (cls : ClassRef) (site : Site) (m : MethodDecl) : Resolving Unit := do
  resolveType site.type m.head.result
  openScope
  resolveParams site 0 m.head.params
  openScope
  resolveBody { cls := cls, isStatic := m.head.isStatic } site 0 m.body
  closeScope
  closeScope

/-- The types of the fields of a class from the `k`th on. -/
def resolveFields (cls : Site) (k : Nat) : List FieldDecl → Resolving Unit
  | [] => pure ()
  | f :: rest => do
    resolveType (cls.field k).type f.type
    resolveFields cls (k + 1) rest

def resolveClass (site : Site) (c : ClassDecl) : Resolving Unit := do
  openScope
  (c.members site).forM fun d => do
    if (← table).retrieveMember? c.name d.name = some d then
      let _ ← enter d d.pos
  resolveFields site 0 c.fields
  (c.sitedMethods site).forM fun (methodSite, m) => resolveMethodDecl (c.ref site) methodSite m
  closeScope

/-- Collects the classes of a program and resolves those that were registered. -/
def resolve (p : Program) : Resolving Unit := do
  collect p
  let t ← table
  (p.registered t).forM fun (site, c) => resolveClass site c

end Resolving

namespace Compilation

/-- Runs a step of resolution with a fresh table: the compilation after it, the table it leaves,
and whether it came to its end. -/
def runResolving (c : Compilation) (step : Program → Resolving Unit) :
    Compilation × ScopeTable × Except Stop Unit :=
  let (work, answer) := (step c.program).run c.log { bindings := c.bindings }
  ({ c with log := work.log, bindings := work.own.bindings }, work.own.table, answer)

def resolve (c : Compilation) : Compilation × ScopeTable × Except Stop Unit :=
  c.runResolving Resolving.resolve

/-- Collects classes and members without resolving what is in them. -/
def collect (c : Compilation) : Compilation × ScopeTable × Except Stop Unit :=
  c.runResolving Resolving.collect

end Compilation

end JamCompiler

import JamCompiler.Compilation

/-!
# Typing

Gives every expression and statement of the method bodies a type. An expression at fault is
reported and gets the type `error`, which goes with everything, so it causes no further errors. A
node's type is recorded once; statements have the unsupported type, since they have no value.

The bindings of names are taken as given, and a reference without one ends the pass.
-/

namespace JamCompiler

abbrev Typing (α : Type) := Pass (SiteMap ValueType) α

namespace Typing

/-- What the bodies are checked against: the bindings of names, and the method they are in. -/
structure Context where
  bound : Site → Option Decl
  home : Home
  method : MethodHead

def Context.result (ctx : Context) : ValueType := ctx.method.result.viewAt ctx.bound ctx.home

def reportType (fault : TypeFault) (pos : Nat) : Typing Unit := Pass.report (.typing fault) pos

/-- Reports a fault of an expression, whose type is then `error`. -/
def faulty (fault : TypeFault) (pos : Nat) : Typing ValueType := do
  reportType fault pos
  return .error

/-- Records the type of a node unless it has one, and answers the type it has. -/
def record (site : Site) (type : ValueType) : Typing ValueType := do
  Pass.modifyOwn (·.fill site type)
  return ((← Pass.getOwn).get? site).getD type

def declOf (ctx : Context) (site : Site) (ref : Reference) : Typing Decl :=
  match ctx.bound site with
  | some d => pure d
  | none => Pass.fatal (.typing .unresolved) ref.pos

/-- The type of what a reference denotes when it stands for a value. -/
def checkValue (ctx : Context) (site : Site) (ref : Reference) : Typing ValueType := do
  let d ← declOf ctx site ref
  match ref, d with
  | .this _, _ => return d.type ctx.bound
  | _, .cls c => faulty (.classAsValue c.name) ref.pos
  | _, .method _ head => faulty (.methodAsValue head.name) ref.pos
  | _, _ =>
    if d = Predefined.out then faulty .outAsValue ref.pos
    else return d.type ctx.bound

/-- The type of what a reference denotes when it is assigned to. -/
def checkTarget (ctx : Context) (site : Site) (ref : Reference) : Typing ValueType := do
  let d ← declOf ctx site ref
  match ref, d with
  | .this pos, _ => faulty .assignToThis pos
  | _, .cls c => faulty (.assignToClass c.name) ref.pos
  | _, .method _ head => faulty (.assignToMethod head.name) ref.pos
  | _, _ =>
    if d = Predefined.length then faulty .lengthReadOnly ref.pos
    else if d = Predefined.out then faulty .outReadOnly ref.pos
    else return d.type ctx.bound

def checkUnary (op : UnaryOp) (pos : Nat) (given : ValueType) : Typing ValueType :=
  match op with
  | .neg => if given.isBase .int then pure (.base .int) else faulty (.negation given) pos
  | .not =>
    if given.isBase .boolean then pure (.base .boolean) else faulty (.complement given) pos
  | .other text => Pass.fatal (.typing (.unknownUnary text)) pos

def checkBinary (op : BinaryOp) (pos : Nat) (left right : ValueType) : Typing ValueType :=
  let onInts (result : BaseType) : Typing ValueType :=
    if left.isBase .int && right.isBase .int then pure (.base result)
    else faulty (.intOperands op.text left right) pos
  match op with
  | .add | .sub | .mul | .div => onInts .int
  | .lt | .le | .gt | .ge => onInts .boolean
  | .eq | .ne =>
    if left.compatible right then pure (.base .boolean)
    else faulty (.incomparable left right) pos
  | .and | .or =>
    if left.isBase .boolean && right.isBase .boolean then pure (.base .boolean)
    else faulty (.booleanOperands op.text left right) pos
  | .other text => Pass.fatal (.typing (.unknownBinary text)) pos

/-- Checks arguments, with their positions and types, against parameters. -/
def matchArgs (method : String) :
    List (Nat × ValueType) → List (ParamDecl × ValueType) → Typing Unit
  | (pos, given) :: args, (p, expected) :: params => do
    if !expected.compatible given then
      reportType (.argument p.name method expected given) pos
    matchArgs method args params
  | _, _ => pure ()

/-- The type of a call at `pos` of the method that `ref` denotes. -/
def checkCall (ctx : Context) (d : Decl) (ref : Reference) (pos : Nat)
    (args : List (Nat × ValueType)) : Typing ValueType := do
  match d with
  | .method home head =>
    if args.length ≠ head.params.length then
      faulty (.argumentCount head.name head.params.length args.length) pos
    else
      matchArgs head.name args (head.paramTypes ctx.bound home)
      return d.type ctx.bound
  | _ => faulty (.notMethod d.name) ref.pos

mutual

/-- The type of an expression, which is recorded. -/
def checkExpr (ctx : Context) (site : Site) : Expr → Typing ValueType
  | .int .. => record site (.base .int)
  | .bool .. => record site (.base .boolean)
  | .null _ => record site (.base .null)
  | .unary op operand pos => do
    let given ← checkExpr ctx site.operand operand
    record site (← checkUnary op pos given)
  | .binary op left right pos => do
    let leftType ← checkExpr ctx site.left left
    let rightType ← checkExpr ctx site.right right
    record site (← checkBinary op pos leftType rightType)
  | .ref ref _ => do record site (← checkValue ctx site.target ref)
  | .index ref index _ => do
    let type ← checkValue ctx site.target ref
    let given ← checkExpr ctx site.index index
    if !given.isBase .int then reportType (.indexNotInt given) index.pos
    match type with
    | .array element => record site element
    | .base .error => record site type
    | _ => record site (← faulty (.notIndexable type) ref.pos)
  | .call method args pos => do
    let d ← declOf ctx site.target method
    let types ← checkArgs ctx site 0 args
    record site (← checkCall ctx d method pos types)
  | .newObject type _ => record site (type.view ctx.bound site.type)
  | .newArray element size _ => do
    let given ← checkExpr ctx site.size size
    if !given.isBase .int then reportType (.sizeNotInt given) size.pos
    record site (.array (element.view ctx.bound site.type))
  | .unknown kind pos => Pass.fatal (.typing (.foreign .expression kind)) pos

/-- The positions and types of the arguments of a call from the `k`th on. -/
def checkArgs (ctx : Context) (call : Site) (k : Nat) :
    List Expr → Typing (List (Nat × ValueType))
  | [] => return []
  | e :: rest => do
    let type ← checkExpr ctx (call.arg k) e
    return (e.pos, type) :: (← checkArgs ctx call (k + 1) rest)

end

def checkCondition (ctx : Context) (site : Site) (statement : String) (cond : Expr) :
    Typing Unit := do
  let given ← checkExpr ctx site cond
  if !given.isBase .boolean then reportType (.condition statement given) cond.pos

def checkReturn (ctx : Context) (site : Site) (pos : Nat) : Option Expr → Typing Unit
  | none => do
    if ctx.result ≠ .base .void then
      reportType (.missingValue ctx.method.name ctx.result) pos
  | some value => do
    let given ← checkExpr ctx site.value value
    if ctx.result = .base .void then reportType (.valueFromVoid ctx.method.name) value.pos
    else if !ctx.result.compatible given then
      reportType (.wrongReturn given ctx.result) value.pos

/-- Records that a statement was checked. -/
def finish (site : Site) : Typing Unit := do
  let _ ← record site (.base .unsupported)

mutual

def checkStmt (ctx : Context) (site : Site) : Stmt → Typing Unit
  | .block stmts _ => do
    checkStmts ctx site 0 stmts
    finish site
  | .declare var init _ => do
    let given ← checkExpr ctx site.init init
    let declared := var.type.view ctx.bound site.var.type
    if !declared.compatible given then
      reportType (.cannotInitialize var.name declared given) init.pos
    finish site
  | .assign target value _ => do
    let expected ← checkTarget ctx site.target target
    let given ← checkExpr ctx site.value value
    if !expected.compatible given then reportType (.cannotAssign given expected) value.pos
    finish site
  | .assignIndex target index value _ => do
    let type ← checkTarget ctx site.target target
    let indexType ← checkExpr ctx site.index index
    let given ← checkExpr ctx site.value value
    if !indexType.isBase .int then reportType (.indexNotInt indexType) index.pos
    match type with
    | .array element =>
      if !element.compatible given then reportType (.cannotStore given element) value.pos
    | .base .error => pure ()
    | _ => reportType (.notIndexable type) target.pos
    finish site
  | .call method args pos => do
    let d ← declOf ctx site.target method
    let types ← checkArgs ctx site 0 args
    let _ ← checkCall ctx d method pos types
    finish site
  | .ret value pos => do
    checkReturn ctx site pos value
    finish site
  | .ifThen cond body _ => do
    checkCondition ctx site.cond "if" cond
    checkStmt ctx site.thenBranch body
    finish site
  | .ifElse cond body other _ => do
    checkCondition ctx site.cond "if" cond
    checkStmt ctx site.thenBranch body
    checkStmt ctx site.elseBranch other
    finish site
  | .loop cond body _ => do
    checkCondition ctx site.cond "while" cond
    checkStmt ctx site.thenBranch body
    finish site
  | .unknown kind pos => Pass.fatal (.typing (.foreign .statement kind)) pos

/-- The statements of a block from the `k`th on. -/
def checkStmts (ctx : Context) (block : Site) (k : Nat) : List Stmt → Typing Unit
  | [] => pure ()
  | s :: rest => do
    checkStmt ctx (block.stmt k) s
    checkStmts ctx block (k + 1) rest

end

/-- The statements of a method from the `k`th on. -/
def checkBody (ctx : Context) (method : Site) (k : Nat) : List Stmt → Typing Unit
  | [] => pure ()
  | s :: rest => do
    checkStmt ctx (method.body k) s
    checkBody ctx method (k + 1) rest

def checkMethod (bound : Site → Option Decl) (site : Site) (m : MethodDecl) : Typing Unit :=
  checkBody { bound := bound, home := .user site, method := m.head } site 0 m.body

/-- Checks all methods of a program, given the bindings of its names. -/
def check (bound : Site → Option Decl) (p : Program) : Typing Unit :=
  p.sitedMethods.forM fun (site, m) => checkMethod bound site m

end Typing

/-- Checks the types of the program: the compilation after it, and whether it came to its end. -/
def Compilation.check (c : Compilation) : Compilation × Except Stop Unit :=
  let (work, answer) := (Typing.check c.bindings.get? c.program).run c.log c.types
  ({ c with log := work.log, types := work.own }, answer)

end JamCompiler

import JamCompiler.Compilation

/-!
# Emission

The code of expressions and statements. Code is relocatable only in part: jumps are absolute, so a
piece of code is made for the address at which it will stand, its `base`. Calls of methods stay
symbolic until all methods have addresses.

An expression leaves its value on top of the stack, a statement leaves the stack as it found it
except that a declaration leaves the value in the slot of the new variable. Where a variable lives
is decided when its declaration is reached: locals of a frame lie after the linkage, in the order
of their declarations, and a block's slots are free again after it.
-/

namespace JamCompiler

open Machine

/-- An instruction, or a call of a method whose address is not known yet. Before a call with a
receiver the receiver is on top of the stack. -/
inductive Item
  | instr (i : Instruction)
  | call (receiver : Bool) (method : Decl)

abbrev Code := List Item

namespace Emission

/-- The words of an object before its fields: the number of its class and its size. -/
def headerSize : Nat := 2

/-- The words of a frame before its locals. -/
def linkageSize : Nat := 3

def boolWord (b : Bool) : Int := if b then 1 else 0

def nullWord : Int := 0

/-- Why an expression has no code. -/
inductive Failure
  | fault (fault : CodeFault) (pos : Nat)
  | missingArgument

abbrev Emitted (α : Type) := Except Failure α

/-- What the code of an expression depends on besides the expression. -/
structure Env where
  bound : Site → Option Decl
  located : Site → Option Location
  layout : Site → Option ClassLayout

def prim (p : Primitive) : Item := .instr (.prim p)

def literal (value : Int) : Item := .instr (.literal value)

/-- The current object. -/
def self : Item := .instr { op := .loada, r := .ob }

def locationOf (env : Env) (d : Decl) : Emitted Location :=
  let place := match d.home with
    | .user site => env.located site
    | .predefined => none
  match place with
  | some location => .ok location
  | none => .error (.fault (.notPlaced d.name) d.pos)

/-- The declaration of a reference that stands for a value. -/
def valueDecl (env : Env) (site : Site) (pos : Nat) : Emitted Decl :=
  match env.bound site with
  | none | some (.cls _) | some (.method ..) => .error (.fault .notValue pos)
  | some d => if d = Predefined.out then .error (.fault .notValue pos) else .ok d

/-- Loads the value that a reference denotes. -/
def emitRef (env : Env) (site : Site) : Reference → Emitted Code
  | .this _ => .ok [self]
  | .ident _ pos => do
    let d ← valueDecl env site pos
    match ← locationOf env d with
    | .static k => .ok [.instr { op := .load, r := .sb, d := k }]
    | .frame k => .ok [.instr { op := .load, r := .lb, d := k }]
    | .object k => .ok [.instr { op := .load, r := .ob, d := k }]
    | .code _ => .error (.fault .notValue pos)
  | .qualified qualifier _ pos => do
    let d ← valueDecl env site pos
    if d = Predefined.length then
      let array ← emitRef env site.qualifier qualifier
      return array ++ [prim .arraylen]
    else
      match ← locationOf env d with
      | .static k => return [.instr { op := .load, r := .sb, d := k }]
      | .frame k => return [.instr { op := .load, r := .lb, d := k }]
      | .object k =>
        let object ← emitRef env site.qualifier qualifier
        return object ++ [literal k, prim .fieldref]
      | .code _ => .error (.fault .notValue pos)
  | .unknown _ pos => .error (.fault .notValue pos)

/-- The declaration of a reference that can be assigned to. -/
def targetDecl (env : Env) (site : Site) (ref : Reference) : Emitted Decl :=
  let refuse := .error (.fault .notVariable ref.pos)
  match ref, env.bound site with
  | .this _, _ => refuse
  | _, none | _, some (.cls _) | _, some (.method ..) => refuse
  | _, some d => if d = Predefined.length || d = Predefined.out then refuse else .ok d

/-- Stores the value that some code leaves where a reference says. The code is made for the
address it is given, so it comes as a function of it. -/
def emitStore (env : Env) (base : Nat) (site : Site) (ref : Reference)
    (value : Nat → Emitted Code) : Emitted Code := do
  let d ← targetDecl env site ref
  let direct (r : Register) (k : Int) : Emitted Code := do
    return (← value base) ++ [.instr { op := .store, r := r, d := k }]
  match ← locationOf env d, ref with
  | .object k, .qualified qualifier _ _ =>
    let object ← emitRef env site.qualifier qualifier
    let front := object ++ [literal k]
    return front ++ (← value (base + front.length)) ++ [prim .fieldupd]
  | .object k, _ => direct .ob k
  | .static k, _ => direct .sb k
  | .frame k, _ => direct .lb k
  | .code _, _ => .error (.fault .notVariable ref.pos)

/-- The method that a call at `pos` calls. -/
def callee (env : Env) (target : Site) (pos : Nat) : Emitted (Home × MethodHead) :=
  match env.bound target with
  | some (.method home head) => .ok (home, head)
  | _ => .error (.fault .callTarget pos)

def isPrintln (method : Home × MethodHead) : Bool :=
  Decl.method method.1 method.2 = Predefined.println

/-- How many of the given arguments are evaluated; printing takes only one. -/
def argsTaken (method : Home × MethodHead) (given : Nat) : Nat :=
  if isPrintln method then min 1 given else given

/-- A call after the code of its arguments. -/
def emitInvocation (env : Env) (target : Site) (ref : Reference) (method : Home × MethodHead)
    (given : Nat) (args : Code) : Emitted Code :=
  let d := Decl.method method.1 method.2
  if isPrintln method then
    if given = 0 then .error .missingArgument else .ok (args ++ [prim .putintnl])
  else if d.isStatic then .ok (args ++ [.call false d])
  else do
    let receiver ← match ref with
      | .qualified qualifier _ _ => emitRef env target.qualifier qualifier
      | _ => .ok [self]
    return args ++ receiver ++ [.call true d]

def unaryPrim? : UnaryOp → Option Primitive
  | .neg => some .neg
  | .not => some .not
  | .other _ => none

def binaryPrim? : BinaryOp → Option Primitive
  | .or => some .or
  | .and => some .and
  | .eq => some .eq
  | .ne => some .ne
  | .lt => some .lt
  | .le => some .le
  | .gt => some .gt
  | .ge => some .ge
  | .add => some .add
  | .sub => some .sub
  | .mul => some .mult
  | .div => some .div
  | .other _ => none

/-- The value of the left operand that makes the right one superfluous, if there is one. -/
def decisive? : BinaryOp → Option Bool
  | .and => some false
  | .or => some true
  | _ => none

def emitNew (env : Env) (site : Site) (type : TypeExpr) (pos : Nat) : Emitted Code :=
  let layout := match type, env.bound site.className with
    | .named .., some (.cls { home := .user cls, .. }) => env.layout cls
    | _, _ => none
  match layout with
  | some l => .ok [literal l.number, literal l.size, prim .newobj]
  | none => .error (.fault (.cannotInstantiate type.text) pos)

mutual

def emitExpr (env : Env) (base : Nat) (site : Site) : Expr → Emitted Code
  | .int value _ => .ok [literal value]
  | .bool value _ => .ok [literal (boolWord value)]
  | .null _ => .ok [literal nullWord]
  | .unary op operand pos =>
    match unaryPrim? op with
    | none => .error (.fault (.unknownUnary op.text) pos)
    | some p => do
      let code ← emitExpr env base site.operand operand
      return code ++ [prim p]
  | .binary op left right pos =>
    match binaryPrim? op with
    | none => .error (.fault (.unknownBinary op.text) pos)
    | some p => do
      let first ← emitExpr env base site.left left
      match decisive? op with
      | none =>
        let second ← emitExpr env (base + first.length) site.right right
        return first ++ second ++ [prim p]
      | some decides =>
        let second ← emitExpr env (base + first.length + 2) site.right right
        let after := base + first.length + 2 + second.length + 1
        return first
          ++ [.instr { op := .load, r := .st, d := -1 },
              .instr { op := .jumpif, n := boolWord decides, r := .cb, d := after }]
          ++ second ++ [prim p]
  | .ref ref _ => emitRef env site.target ref
  | .index ref index _ => do
    let array ← emitRef env site.target ref
    let code ← emitExpr env (base + array.length) site.index index
    return array ++ code ++ [prim .arrayref]
  | .call ref args pos => do
    let method ← callee env site.target pos
    let code ← emitArgs env base site 0 (argsTaken method args.length) args
    emitInvocation env site.target ref method args.length code
  | .newObject type pos => emitNew env site.type type pos
  | .newArray _ size _ => do
    let code ← emitExpr env base site.size size
    return code ++ [prim .newarr]
  | .unknown kind pos => .error (.fault (.foreign .expression kind) pos)

/-- The first `taken` arguments of a call from the `k`th on. -/
def emitArgs (env : Env) (base : Nat) (call : Site) (k taken : Nat) : List Expr → Emitted Code
  | [] => .ok []
  | e :: rest =>
    match taken with
    | 0 => .ok []
    | taken + 1 => do
      let code ← emitExpr env base (call.arg k) e
      let more ← emitArgs env (base + code.length) call (k + 1) taken rest
      return code ++ more

end

/-- The state of emission: where things live. -/
structure Placing where
  locations : SiteMap Location := {}
  layouts : SiteMap ClassLayout := {}

abbrev Emitting (α : Type) := Pass Placing α

/-- What the code of statements depends on besides where things live. -/
structure Context where
  bound : Site → Option Decl
  arity : Nat

def fatal {α : Type} (fault : CodeFault) (pos : Nat) : Emitting α := Pass.fatal (.code fault) pos

/-- Gives a declared thing its location; it must not have one. -/
def place (site : Site) (location : Location) (name : String) (pos : Nat) : Emitting Unit := do
  match (← Pass.getOwn).locations.get? site with
  | some _ => fatal (.placedTwice name) pos
  | none => Pass.modifyOwn fun p => { p with locations := p.locations.fill site location }

/-- Code that depends on where things live now. -/
def emitted {α : Type} (bound : Site → Option Decl) (code : Env → Emitted α) : Emitting α := do
  let placing ← Pass.getOwn
  match code ⟨bound, placing.locations.get?, placing.layouts.get?⟩ with
  | .ok a => return a
  | .error (.fault fault pos) => fatal fault pos
  | .error .missingArgument => throw .missingArgument

def pop (n : Nat) : Item := .instr { op := .pop, d := n }

def jump (target : Nat) : Item := .instr { op := .jump, r := .cb, d := target }

def jumpIf (value : Bool) (target : Nat) : Item :=
  .instr { op := .jumpif, n := boolWord value, r := .cb, d := target }

/-- A call as a statement, whose result, if any, is dropped. -/
def emitCallStmt (env : Env) (base : Nat) (site : Site) (ref : Reference) (args : List Expr)
    (pos : Nat) : Emitted Code := do
  let method ← callee env site.target pos
  let code ← emitArgs env base site 0 (argsTaken method args.length) args
  let call ← emitInvocation env site.target ref method args.length code
  return if method.2.result.isVoid then call else call ++ [pop 1]

def emitElementStore (env : Env) (base : Nat) (site : Site) (target : Reference)
    (index value : Expr) : Emitted Code := do
  let array ← emitRef env site.target target
  let indexCode ← emitExpr env (base + array.length) site.index index
  let valueCode ← emitExpr env (base + array.length + indexCode.length) site.value value
  return array ++ indexCode ++ valueCode ++ [prim .arrayupd]

mutual

/-- The code of a statement at `base`, where the next local gets the frame offset `slot`, and how
many locals it declares in the block that it is in. -/
def emitStmt (ctx : Context) (base slot : Nat) (site : Site) : Stmt → Emitting (Code × Nat)
  | .block stmts _ => do
    let (code, declared) ← emitStmts ctx base slot site 0 stmts
    return (if declared = 0 then code else code ++ [pop declared], 0)
  | .declare var init _ => do
    place site.var (.frame slot) var.name var.pos
    let code ← emitted ctx.bound (emitExpr · base site.init init)
    return (code, 1)
  | .assign target value _ => do
    let code ← emitted ctx.bound fun env =>
      emitStore env base site.target target (emitExpr env · site.value value)
    return (code, 0)
  | .assignIndex target index value _ => do
    let code ← emitted ctx.bound (emitElementStore · base site target index value)
    return (code, 0)
  | .call ref args pos => do
    let code ← emitted ctx.bound (emitCallStmt · base site ref args pos)
    return (code, 0)
  | .ret none _ => return ([.instr { op := .ret, n := 0, d := ctx.arity }], 0)
  | .ret (some value) _ => do
    let code ← emitted ctx.bound (emitExpr · base site.value value)
    return (code ++ [.instr { op := .ret, n := 1, d := ctx.arity }], 0)
  | .ifThen cond body _ => do
    let test ← emitted ctx.bound (emitExpr · base site.cond cond)
    let (code, declared) ← emitStmt ctx (base + test.length + 1) slot site.thenBranch body
    let after := base + test.length + 1 + code.length + 1
    return (test ++ [jumpIf false after] ++ code ++ [jump after], declared)
  | .ifElse cond body other _ => do
    let test ← emitted ctx.bound (emitExpr · base site.cond cond)
    let (code, declared) ← emitStmt ctx (base + test.length + 1) slot site.thenBranch body
    let second := base + test.length + 1 + code.length + 1
    let (otherCode, otherDeclared) ←
      emitStmt ctx second (slot + declared) site.elseBranch other
    let after := second + otherCode.length
    return (test ++ [jumpIf false second] ++ code ++ [jump after] ++ otherCode,
      declared + otherDeclared)
  | .loop cond body _ => do
    let (code, declared) ← emitStmt ctx (base + 1) slot site.thenBranch body
    let test := base + 1 + code.length
    let condCode ← emitted ctx.bound (emitExpr · test site.cond cond)
    return ([jump test] ++ code ++ condCode ++ [jumpIf true (base + 1)], declared)
  | .unknown kind pos => fatal (.foreign .statement kind) pos

/-- The statements of a block from the `k`th on. -/
def emitStmts (ctx : Context) (base slot : Nat) (block : Site) (k : Nat) :
    List Stmt → Emitting (Code × Nat)
  | [] => return ([], 0)
  | s :: rest => do
    let (code, declared) ← emitStmt ctx base slot (block.stmt k) s
    let (more, moreDeclared) ←
      emitStmts ctx (base + code.length) (slot + declared) block (k + 1) rest
    return (code ++ more, declared + moreDeclared)

end

/-- The statements of a method from the `k`th on. -/
def emitBody (ctx : Context) (base slot : Nat) (method : Site) (k : Nat) :
    List Stmt → Emitting Code
  | [] => return []
  | s :: rest => do
    let (code, declared) ← emitStmt ctx base slot (method.body k) s
    let more ← emitBody ctx (base + code.length) (slot + declared) method (k + 1) rest
    return code ++ more

/-- Parameters lie below the frame, the last one next to it. -/
def placeParams (method : Site) (arity k : Nat) : List ParamDecl → Emitting Unit
  | [] => pure ()
  | p :: rest => do
    place (method.param k) (.frame (k - arity)) p.name p.pos
    placeParams method arity (k + 1) rest

def emitMethod (bound : Site → Option Decl) (base : Nat) (site : Site) (m : MethodDecl) :
    Emitting Code := do
  let arity := m.head.params.length
  placeParams site arity 0 m.head.params
  place site (.code base) m.head.name m.head.pos
  emitBody ⟨bound, arity⟩ base linkageSize site 0 m.body

/-- The methods of a program, one after the other. -/
def emitMethods (bound : Site → Option Decl) (base : Nat) :
    List (Site × MethodDecl) → Emitting Code
  | [] => return []
  | (site, m) :: rest => do
    let code ← emitMethod bound base site m
    let more ← emitMethods bound (base + code.length) rest
    return code ++ more

end Emission

end JamCompiler

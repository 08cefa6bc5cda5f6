import JamCompiler.Generation
import JamCompiler.Machine.Buffer

/-!
# Generation by backpatching

Code generation as one sweep over the program, which adds one instruction after the other to a
buffer. Where a jump goes forward its target is not known yet, and where a method is called its
address may not be known; such an instruction is added with the operand zero. The operand of a jump
is patched when its target is come to, those of calls at the end, from a table of the calls that
were added.
-/

namespace JamCompiler

open Machine Emission

/-- Code under construction, and the addresses in it at which methods are called. -/
structure Draft where
  buffer : Buffer := {}
  calls : List (Nat × Decl) := []

/-- A step that adds to a draft. It has no answer if it patches where there is no instruction. -/
abbrev Drafting (σ α : Type) := StateT Draft (OptionT (Pass σ)) α

namespace Drafting

variable {σ α : Type}

/-- A step that leaves the draft as it is. -/
def pass (x : Pass σ α) : Drafting σ α := fun draft => OptionT.mk do return some (← x, draft)

/-- The address of the next instruction. -/
def next : Drafting σ Nat := return (← get).buffer.next

/-- Adds an instruction, and answers its address. -/
def emit (i : Instruction) : Drafting σ Nat := do
  let addr ← next
  modify fun draft => { draft with buffer := draft.buffer.emit i }
  return addr

def patch (addr d : Nat) : Drafting σ Unit := do
  let draft ← get
  match draft.buffer.patch? addr d with
  | some buffer => set { draft with buffer := buffer }
  | none => failure

/-- Records that a method is called at an address. -/
def enterCall (addr : Nat) (method : Decl) : Drafting σ Unit :=
  modify fun draft => { draft with calls := draft.calls ++ [(addr, method)] }

/-- Adds a call without the address of the method. -/
def emitCall (receiver : Bool) (method : Decl) : Drafting σ Unit := do
  let addr ← emit { op := if receiver then .calli else .call, r := .cb }
  enterCall addr method

/-- Adds code without jumps, one item after the other. -/
def write : Code → Drafting σ Unit
  | [] => pure ()
  | .instr i :: rest => do
    let _ ← emit i
    write rest
  | .call receiver method :: rest => do
    emitCall receiver method
    write rest

/-- What is found out with what is known so far. -/
def ask (bound : Site → Option Decl) (x : Env → Emitted α) : Drafting Placing α :=
  pass (emitted bound x)

mutual

def draftExpr (bound : Site → Option Decl) (site : Site) : Expr → Drafting Placing Unit
  | .int value _ => write [literal value]
  | .bool value _ => write [literal (boolWord value)]
  | .null _ => write [literal nullWord]
  | .unary op operand pos =>
    match unaryPrim? op with
    | none => pass (Emission.fatal (.unknownUnary op.text) pos)
    | some p => do
      draftExpr bound site.operand operand
      write [prim p]
  | .binary op left right pos =>
    match binaryPrim? op with
    | none => pass (Emission.fatal (.unknownBinary op.text) pos)
    | some p => do
      draftExpr bound site.left left
      match decisive? op with
      | none =>
        draftExpr bound site.right right
        write [prim p]
      | some decides =>
        write [.instr { op := .load, r := .st, d := -1 }]
        let skip ← emit { op := .jumpif, n := boolWord decides, r := .cb }
        draftExpr bound site.right right
        write [prim p]
        patch skip (← next)
  | .ref ref _ => do write (← ask bound (emitRef · site.target ref))
  | .index ref index _ => do
    write (← ask bound (emitRef · site.target ref))
    draftExpr bound site.index index
    write [prim .arrayref]
  | .call ref args pos => do
    let method ← ask bound (callee · site.target pos)
    draftArgs bound site 0 (argsTaken method args.length) args
    write (← ask bound (emitInvocation · site.target ref method args.length []))
  | .newObject type pos => do write (← ask bound (emitNew · site.type type pos))
  | .newArray _ size _ => do
    draftExpr bound site.size size
    write [prim .newarr]
  | .unknown kind pos => pass (Emission.fatal (.foreign .expression kind) pos)

/-- The first `taken` arguments of a call from the `k`th on. -/
def draftArgs (bound : Site → Option Decl) (call : Site) (k taken : Nat) :
    List Expr → Drafting Placing Unit
  | [] => pure ()
  | e :: rest =>
    match taken with
    | 0 => pure ()
    | taken + 1 => do
      draftExpr bound (call.arg k) e
      draftArgs bound call (k + 1) taken rest

end

def draftStore (bound : Site → Option Decl) (site : Site) (ref : Reference)
    (value : Drafting Placing Unit) : Drafting Placing Unit := do
  let d ← ask bound (targetDecl · site ref)
  let direct (r : Register) (k : Int) : Drafting Placing Unit := do
    value
    write [.instr { op := .store, r := r, d := k }]
  match ← ask bound (locationOf · d), ref with
  | .object k, .qualified qualifier _ _ =>
    write (← ask bound (emitRef · site.qualifier qualifier))
    write [literal k]
    value
    write [prim .fieldupd]
  | .object k, _ => direct .ob k
  | .static k, _ => direct .sb k
  | .frame k, _ => direct .lb k
  | .code _, _ => pass (Emission.fatal .notVariable ref.pos)

/-- A condition and what is done if it holds, up to the jump past what is done else. Answers the
address of that jump, which is not patched yet, and how many locals are declared. -/
def draftBranch (cond : Drafting Placing Unit) (body : Drafting Placing Nat) :
    Drafting Placing (Nat × Nat) := do
  cond
  let skip ← emit { op := .jumpif, n := boolWord false, r := .cb }
  let declared ← body
  let last ← emit { op := .jump, r := .cb }
  patch skip (← next)
  return (last, declared)

mutual

/-- A statement, where the next local gets the frame offset `slot`. Answers how many locals it
declares in the block that it is in. -/
def draftStmt (ctx : Context) (slot : Nat) (site : Site) : Stmt → Drafting Placing Nat
  | .block stmts _ => do
    let declared ← draftStmts ctx slot site 0 stmts
    if declared ≠ 0 then write [pop declared]
    return 0
  | .declare var init _ => do
    pass (place site.var (.frame slot) var.name var.pos)
    draftExpr ctx.bound site.init init
    return 1
  | .assign target value _ => do
    draftStore ctx.bound site.target target (draftExpr ctx.bound site.value value)
    return 0
  | .assignIndex target index value _ => do
    write (← ask ctx.bound (emitRef · site.target target))
    draftExpr ctx.bound site.index index
    draftExpr ctx.bound site.value value
    write [prim .arrayupd]
    return 0
  | .call ref args pos => do
    let method ← ask ctx.bound (callee · site.target pos)
    draftArgs ctx.bound site 0 (argsTaken method args.length) args
    write (← ask ctx.bound (emitInvocation · site.target ref method args.length []))
    if !method.2.result.isVoid then write [pop 1]
    return 0
  | .ret none _ => do
    write [.instr { op := .ret, n := 0, d := ctx.arity }]
    return 0
  | .ret (some value) _ => do
    draftExpr ctx.bound site.value value
    write [.instr { op := .ret, n := 1, d := ctx.arity }]
    return 0
  | .ifThen cond body _ => do
    let (last, declared) ← draftBranch (draftExpr ctx.bound site.cond cond)
      (draftStmt ctx slot site.thenBranch body)
    patch last (← next)
    return declared
  | .ifElse cond body other _ => do
    let (last, declared) ← draftBranch (draftExpr ctx.bound site.cond cond)
      (draftStmt ctx slot site.thenBranch body)
    let otherDeclared ← draftStmt ctx (slot + declared) site.elseBranch other
    patch last (← next)
    return declared + otherDeclared
  | .loop cond body _ => do
    let toTest ← emit { op := .jump, r := .cb }
    let start ← next
    let declared ← draftStmt ctx slot site.thenBranch body
    patch toTest (← next)
    draftExpr ctx.bound site.cond cond
    let _ ← emit { op := .jumpif, n := boolWord true, r := .cb, d := start }
    return declared
  | .unknown kind pos => pass (Emission.fatal (.foreign .statement kind) pos)

/-- The statements of a block from the `k`th on. -/
def draftStmts (ctx : Context) (slot : Nat) (block : Site) (k : Nat) :
    List Stmt → Drafting Placing Nat
  | [] => return 0
  | s :: rest => do
    let declared ← draftStmt ctx slot (block.stmt k) s
    let more ← draftStmts ctx (slot + declared) block (k + 1) rest
    return declared + more

end

/-- The statements of a method from the `k`th on. -/
def draftBody (ctx : Context) (slot : Nat) (method : Site) (k : Nat) :
    List Stmt → Drafting Placing Unit
  | [] => pure ()
  | s :: rest => do
    let declared ← draftStmt ctx slot (method.body k) s
    draftBody ctx (slot + declared) method (k + 1) rest

def draftMethod (bound : Site → Option Decl) (site : Site) (m : MethodDecl) :
    Drafting Placing Unit := do
  let arity := m.head.params.length
  pass (placeParams site arity 0 m.head.params)
  pass (place site (.code (← next)) m.head.name m.head.pos)
  draftBody ⟨bound, arity⟩ linkageSize site 0 m.body

def draftMethods (bound : Site → Option Decl) :
    List (Site × MethodDecl) → Drafting Placing Unit
  | [] => pure ()
  | (site, m) :: rest => do
    draftMethod bound site m
    draftMethods bound rest

/-- A step that adds to a draft and places things, within generation. -/
def placing (x : Drafting Placing α) : Drafting Generation.State α :=
  fun draft => OptionT.mk (Generation.placing (x draft).run)

/-- Patches calls with the addresses of the methods they call. -/
def patchCalls : List (Nat × Decl) → Drafting Generation.State Unit
  | [] => pure ()
  | (addr, method) :: rest => do
    patch addr (← pass (Generation.addressOf method))
    patchCalls rest

/-- Generates the object code of a program, the prelude first. -/
def generate (bound : Site → Option Decl) : Drafting Generation.State ObjectCode := do
  let staticTop ← emit { op := .push }
  write [literal 0, prim .newarr]
  let mainCall ← emit { op := .call, r := .cb }
  let _ ← emit { op := .halt }
  let program := (← pass Pass.getOwn).program
  let staticSize ← pass (Generation.placing (Generation.placeClasses 0 0 program.classes))
  match program.entry? with
  | .error fault => pass (Generation.fatal fault)
  | .ok (mainSite, mainHead) =>
    let main := Decl.method (.user mainSite) mainHead
    enterCall mainCall main
    pass Generation.addReturns
    let methods := (← pass Pass.getOwn).program.sitedMethods
    placing (draftMethods bound methods)
    patch staticTop staticSize
    patchCalls (← get).calls
    let entry ← pass (Generation.addressOf main)
    let draft ← get
    return {
      code := draft.buffer.code
      staticSize := staticSize
      patches := draft.calls
      entry := entry }

end Drafting

end JamCompiler

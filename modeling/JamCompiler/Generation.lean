import JamCompiler.Emission
import JamCompiler.Machine.Listing

/-!
# Generation

Makes the object code of a program. Fields get their places first, static ones in one segment for
the whole program and instance fields one after the other in each object. Then the entry is looked
for, every method is made to end with a return, and the code of all methods is put after a short
prelude that calls the entry. Last, calls get the addresses of the methods they call.

Each declared thing is placed once, so code can be generated from a compilation only once.
-/

namespace JamCompiler

open Machine

/-- The code of a program, the size of its static segment, the addresses at which methods are
called, in order after that of the entry, and the address of the entry. -/
structure ObjectCode where
  code : List Instruction
  staticSize : Nat
  patches : List (Nat × Decl)
  entry : Nat

def ObjectCode.listing (o : ObjectCode) : Except UnknownPrimitive String :=
  Listing.text o.staticSize o.entry o.code

/-- The method with a return at the end of its body, if it may have one added. -/
def MethodDecl.returning (m : MethodDecl) : Except (CodeFault × Nat) MethodDecl :=
  match m.body.getLast? with
  | none => .ok { m with body := [.ret none m.head.pos] }
  | some last =>
    if last.isReturn then .ok m
    else if m.head.result.isVoid then .ok { m with body := m.body ++ [.ret none last.pos] }
    else .error (.missingReturn m.head.name, last.pos)

/-- Methods made to return, up to the first that cannot be. -/
def returningMethods : List MethodDecl → List MethodDecl × Option (CodeFault × Nat)
  | [] => ([], none)
  | m :: rest =>
    match m.returning with
    | .error fault => (m :: rest, some fault)
    | .ok m =>
      let (rest, fault) := returningMethods rest
      (m :: rest, fault)

def returningClasses : List ClassDecl → List ClassDecl × Option (CodeFault × Nat)
  | [] => ([], none)
  | c :: rest =>
    match returningMethods c.methods with
    | (methods, some fault) => ({ c with methods := methods } :: rest, some fault)
    | (methods, none) =>
      let (rest, fault) := returningClasses rest
      ({ c with methods := methods } :: rest, fault)

/-- The methods called `main`. -/
def Program.mains (p : Program) : List (Site × MethodHead) :=
  p.sitedMethods.filterMap fun (site, m) =>
    if m.head.name = "main" then some (site, m.head) else none

/-- Whether a type is the one that the entry's parameter must have. -/
def TypeExpr.isStringArray : TypeExpr → Bool
  | array (named name _) _ => name.spelling = "String"
  | _ => false

/-- What keeps a method from being the entry, and where. -/
def MethodHead.entryFault? (m : MethodHead) : Option (CodeFault × Nat) :=
  if !m.isStatic then some (.mainNotStatic, m.pos)
  else if m.isPrivate then some (.mainPrivate, m.pos)
  else if !m.result.isVoid then some (.mainNotVoid, m.pos)
  else match m.params with
    | [p] =>
      if p.type.isStringArray then none else some (.mainParamType p.type.text, p.pos)
    | _ => some (.mainParams, m.pos)

/-- The method at which a program starts. -/
def Program.entry? (p : Program) : Except (CodeFault × Nat) (Site × MethodHead) :=
  match p.mains with
  | [] => .error (.noMain, 0)
  | _ :: second :: _ => .error (.manyMains, second.2.pos)
  | [main] =>
    match main.2.entryFault? with
    | some fault => .error fault
    | none => .ok main

namespace Generation

/-- The state of generation: the program, whose bodies get returns, and where things live. -/
structure State where
  program : Program
  placing : Emission.Placing := {}

abbrev Generating (α : Type) := Pass State α

def fatal {α : Type} (fault : CodeFault × Nat) : Generating α := Pass.fatal (.code fault.1) fault.2

/-- A step that only places things. -/
def placing {α : Type} (step : Emission.Emitting α) : Generating α := do
  let work ← get
  match step.run work.log work.own.placing with
  | (after, answer) =>
    set { log := after.log, own := { work.own with placing := after.own } : Work State }
    match answer with
    | .ok a => return a
    | .error stop => throw stop

/-- The fields of a class from the `k`th on, when so many static fields of the program and
instance fields of the class have been placed. Answers both numbers. -/
def placeFields (cls : Site) (k statics instances : Nat) :
    List FieldDecl → Emission.Emitting (Nat × Nat)
  | [] => return (statics, instances)
  | f :: rest => do
    if f.isStatic then
      Emission.place (cls.field k) (.static statics) f.name f.pos
      placeFields cls (k + 1) (statics + 1) instances rest
    else
      Emission.place (cls.field k) (.object (Emission.headerSize + instances)) f.name f.pos
      placeFields cls (k + 1) statics (instances + 1) rest

/-- Places the fields of the classes from the one numbered `number` on, and answers the size of
the static segment. -/
def placeClasses (number statics : Nat) : List ClassDecl → Emission.Emitting Nat
  | [] => return statics
  | c :: rest => do
    let site := Site.classAt number
    let (statics, instances) ← placeFields site 0 statics 0 c.fields
    Pass.modifyOwn fun p => { p with layouts := p.layouts.fill site ⟨number, instances⟩ }
    placeClasses (number + 1) statics rest

/-- Gives every method of the program a return at its end. -/
def addReturns : Generating Unit := do
  let program := (← Pass.getOwn).program
  let (classes, fault) := returningClasses program.classes
  Pass.modifyOwn ({ · with program := { program with classes := classes } })
  match fault with
  | some fault => fatal fault
  | none => pure ()

/-- The address of a method. -/
def addressOf (method : Decl) : Generating Nat := do
  let locations := (← Pass.getOwn).placing.locations
  let location := match method.home with
    | .user site => locations.get? site
    | .predefined => none
  match location with
  | some (.code address) => return address
  | _ => fatal (.notPlaced method.name, method.pos)

/-- The address at which the first method stands, after the prelude. -/
def codeStart : Nat := 5

/-- Reserves the static segment, makes an empty array for the entry's parameter, calls the entry
and halts. -/
def prelude (staticSize entry : Nat) : List Instruction :=
  [{ op := .push, d := staticSize }, .literal 0, .prim .newarr,
   { op := .call, r := .cb, d := entry }, { op := .halt }]

/-- The address of the call of the entry in the prelude. -/
def entryCall : Nat := 3

/-- The addresses at which code from an address on calls methods. -/
def callsFrom (addr : Nat) : Code → List (Nat × Decl)
  | [] => []
  | .instr _ :: rest => callsFrom (addr + 1) rest
  | .call _ method :: rest => (addr, method) :: callsFrom (addr + 1) rest

/-- Code with the addresses of the methods it calls. -/
def link : Code → Generating (List Instruction)
  | [] => return []
  | .instr i :: rest => return i :: (← link rest)
  | .call receiver method :: rest => do
    let address ← addressOf method
    let op := if receiver then Opcode.calli else Opcode.call
    return { op := op, r := .cb, d := address } :: (← link rest)

def generate (bound : Site → Option Decl) : Generating ObjectCode := do
  let program := (← Pass.getOwn).program
  let staticSize ← placing (placeClasses 0 0 program.classes)
  match program.entry? with
  | .error fault => fatal fault
  | .ok (mainSite, mainHead) =>
    let main := Decl.method (.user mainSite) mainHead
    addReturns
    let methods := (← Pass.getOwn).program.sitedMethods
    let code ← placing (Emission.emitMethods bound codeStart methods)
    let entry ← addressOf main
    let body ← link code
    return {
      code := prelude staticSize entry ++ body
      staticSize := staticSize
      patches := (entryCall, main) :: callsFrom codeStart code
      entry := entry }

end Generation

/-- Generates code: the compilation after it, and the object code if the pass came to its end. -/
def Compilation.generate (c : Compilation) : Compilation × Except Stop ObjectCode :=
  let state : Generation.State := ⟨c.program, ⟨c.locations, c.layouts⟩⟩
  let (work, answer) := (Generation.generate c.bindings.get?).run c.log state
  let after := { c with
    program := work.own.program
    log := work.log
    locations := work.own.placing.locations
    layouts := work.own.placing.layouts }
  (after, answer)

end JamCompiler

import JamCompiler.Fault
import JamCompiler.Program

/-!
# Reading programs

From tokens to trees, by recursive descent. A reading step takes tokens off the front; where it is
stuck the tokens left begin with the first one that cannot go on from what was read, or are none
at all if the text ended too early. The numbers that the mutually recursive steps count down bound
their depth; `Program.ofText?` starts with more than any text of its length needs.

The grammar is that of a small class-based language. Binary operators are left associative and
rank by `BinaryOp.precedence`, an `else` belongs to the nearest `if`, and parentheses leave no
trace. An element of an array can be assigned through a name or a qualified name, not through
`this` itself.
-/

namespace JamCompiler

/-- Reading from the front of a token list. -/
abbrev Reading (α : Type) := EStateM Unit (List Token) α

namespace Reading

/-- Stuck at the next token. -/
def stuck {α : Type} : Reading α := throw ()

/-- The next token without taking it. -/
def peek : Reading (Option TokenKind) := do return (← get).head?.map Token.kind

/-- Takes the next token if it is the one given, and answers its position. -/
def expect (kind : TokenKind) : Reading Nat := do
  match ← get with
  | token :: rest => if token.kind = kind then set rest; return token.pos else stuck
  | [] => stuck

def symbol (s : Symbol) : Reading Nat := expect (.symbol s)

def keyword (word : Keyword) : Reading Nat := expect (.keyword word)

def identifier : Reading Identifier := do
  match ← get with
  | ⟨.ident name, pos, _⟩ :: rest => set rest; return ⟨name, pos⟩
  | _ => stuck

/-- Takes the next token if it is the one given. -/
def takes (kind : TokenKind) : Reading Bool := do
  if (← peek) = some kind then
    let _ ← expect kind
    return true
  else return false

/-- A type that goes on with brackets or ends here. -/
def arrayOr (element : TypeExpr) : Reading TypeExpr := do
  if ← takes (.symbol .lbracket) then
    let _ ← symbol .rbracket
    return .array element element.pos
  else return element

/-- `int`, `boolean` or `int[]`. -/
def primitiveType : Reading TypeExpr := do
  match ← peek with
  | some (.keyword .booleanWord) => return .base .boolean (← keyword .booleanWord)
  | _ => arrayOr (.base .int (← keyword .intWord))

/-- The type of a variable, a field or a result other than `void`. -/
def typeExpr : Reading TypeExpr := do
  match ← peek with
  | some (.ident _) =>
    let name ← identifier
    arrayOr (.named name name.pos)
  | _ => primitiveType

/-- The names that qualify a reference further. -/
def qualifiers (ref : Reference) : Reading Reference
  | ⟨.symbol .dot, _, _⟩ :: ⟨.ident name, pos, _⟩ :: rest =>
    qualifiers (.qualified ref ⟨name, pos⟩ ref.pos) rest
  | ⟨.symbol .dot, _, _⟩ :: rest => .error () rest
  | tokens => .ok ref tokens

def reference : Reading Reference := do
  match ← peek with
  | some (.ident _) =>
    let name ← identifier
    qualifiers (.ident name name.pos)
  | _ => qualifiers (.this (← keyword .thisWord))

def binaryOp? : Symbol → Option BinaryOp
  | .or => some .or
  | .and => some .and
  | .eq => some .eq
  | .ne => some .ne
  | .lt => some .lt
  | .le => some .le
  | .gt => some .gt
  | .ge => some .ge
  | .plus => some .add
  | .minus => some .sub
  | .times => some .mul
  | .divide => some .div
  | _ => none

/-- The operator that the next token is, if it binds at least as tightly as asked. -/
def nextOp (least : Nat) : Reading (Option (Symbol × BinaryOp)) := do
  match ← peek with
  | some (.symbol s) =>
    match binaryOp? s with
    | some op => return if least ≤ op.precedence then some (s, op) else none
    | none => return none
  | _ => return none

mutual

/-- An expression whose operators outside parentheses bind at least as tightly as `least`. -/
def exprFrom : Nat → (least : Nat) → Reading Expr
  | 0, _ => stuck
  | fuel + 1, least => do
    let first ← operand fuel
    operators fuel least first

/-- Goes on with the operators and operands after `left`. -/
def operators : Nat → (least : Nat) → (left : Expr) → Reading Expr
  | 0, _, _ => stuck
  | fuel + 1, least, left => do
    match ← nextOp least with
    | none => return left
    | some (s, op) =>
      let pos ← symbol s
      let right ← exprFrom fuel (op.precedence + 1)
      operators fuel least (.binary op left right pos)

/-- An expression without binary operators outside parentheses. -/
def operand : Nat → Reading Expr
  | 0 => stuck
  | fuel + 1 => do
    match ← peek with
    | some (.number value) => return .int value (← expect (.number value))
    | some (.keyword .trueWord) => return .bool true (← keyword .trueWord)
    | some (.keyword .falseWord) => return .bool false (← keyword .falseWord)
    | some (.keyword .nullWord) => return .null (← keyword .nullWord)
    | some (.symbol .minus) =>
      let pos ← symbol .minus
      return .unary .neg (← operand fuel) pos
    | some (.symbol .not) =>
      let pos ← symbol .not
      return .unary .not (← operand fuel) pos
    | some (.symbol .lparen) =>
      let _ ← symbol .lparen
      let e ← exprFrom fuel 1
      let _ ← symbol .rparen
      return e
    | some (.keyword .newWord) => creation fuel (← keyword .newWord)
    | _ => referenceOperand fuel (← reference)

/-- An operand that begins with a reference: its value, an element or a call. -/
def referenceOperand : Nat → Reference → Reading Expr
  | 0, _ => stuck
  | fuel + 1, ref => do
    match ← peek with
    | some (.symbol .lbracket) =>
      let _ ← symbol .lbracket
      let index ← exprFrom fuel 1
      let _ ← symbol .rbracket
      return .index ref index ref.pos
    | some (.symbol .lparen) => return .call ref (← arguments fuel) ref.pos
    | _ => return .ref ref ref.pos

/-- What follows `new`, which stands at `pos`. -/
def creation : Nat → (pos : Nat) → Reading Expr
  | 0, _ => stuck
  | fuel + 1, pos => do
    match ← peek with
    | some (.ident _) =>
      let name ← identifier
      if ← takes (.symbol .lparen) then
        let _ ← symbol .rparen
        return .newObject (.named name name.pos) pos
      else return .newArray (.named name name.pos) (← bracketed fuel) pos
    | _ =>
      let intPos ← keyword .intWord
      return .newArray (.base .int intPos) (← bracketed fuel) pos

/-- An expression between brackets. -/
def bracketed : Nat → Reading Expr
  | 0 => stuck
  | fuel + 1 => do
    let _ ← symbol .lbracket
    let e ← exprFrom fuel 1
    let _ ← symbol .rbracket
    return e

/-- Arguments between parentheses. -/
def arguments : Nat → Reading (List Expr)
  | 0 => stuck
  | fuel + 1 => do
    let _ ← symbol .lparen
    if ← takes (.symbol .rparen) then return []
    else
      let first ← exprFrom fuel 1
      return first :: (← moreArguments fuel)

def moreArguments : Nat → Reading (List Expr)
  | 0 => stuck
  | fuel + 1 => do
    if ← takes (.symbol .comma) then
      let next ← exprFrom fuel 1
      return next :: (← moreArguments fuel)
    else
      let _ ← symbol .rparen
      return []

end

/-- An expression after an equals sign, up to the semicolon. -/
def initializer (fuel : Nat) : Reading Expr := do
  let _ ← symbol .assign
  let e ← exprFrom fuel 1
  let _ ← symbol .semicolon
  return e

/-- The rest of a declaration of a local variable after its type. -/
def declaration (fuel : Nat) (type : TypeExpr) : Reading Stmt := do
  let name ← identifier
  return .declare ⟨name.spelling, type, name.pos⟩ (← initializer fuel) type.pos

/-- The rest of an assignment to an element after the opening bracket. -/
def elementAssignment (fuel : Nat) (ref : Reference) : Reading Stmt := do
  let index ← exprFrom fuel 1
  let _ ← symbol .rbracket
  return .assignIndex ref index (← initializer fuel) ref.pos

def isQualified : Reference → Bool
  | .qualified .. => true
  | _ => false

/-- The rest of a statement that begins with a reference. -/
def referenceStmt (fuel : Nat) (ref : Reference) : Reading Stmt := do
  match ← peek with
  | some (.symbol .lparen) =>
    let args ← arguments fuel
    let _ ← symbol .semicolon
    return .call ref args ref.pos
  | some (.symbol .lbracket) =>
    if isQualified ref then
      let _ ← symbol .lbracket
      elementAssignment fuel ref
    else stuck
  | _ => return .assign ref (← initializer fuel) ref.pos

/-- The rest of a statement that begins with an identifier: the name of a class in a declaration,
or the first name of a reference. -/
def namedStmt (fuel : Nat) (name : Identifier) : Reading Stmt := do
  match ← peek with
  | some (.ident _) => declaration fuel (.named name name.pos)
  | some (.symbol .lbracket) =>
    let _ ← symbol .lbracket
    if ← takes (.symbol .rbracket) then
      declaration fuel (.array (.named name name.pos) name.pos)
    else elementAssignment fuel (.ident name name.pos)
  | _ => referenceStmt fuel (← qualifiers (.ident name name.pos))

/-- The rest of a `return` at `pos`. -/
def returnStmt (fuel pos : Nat) : Reading Stmt := do
  if ← takes (.symbol .semicolon) then return .ret none pos
  else
    let e ← exprFrom fuel 1
    let _ ← symbol .semicolon
    return .ret (some e) pos

/-- A condition between parentheses. -/
def condition (fuel : Nat) : Reading Expr := do
  let _ ← symbol .lparen
  let e ← exprFrom fuel 1
  let _ ← symbol .rparen
  return e

mutual

def stmtFrom : Nat → Reading Stmt
  | 0 => stuck
  | fuel + 1 => do
    match ← peek with
    | some (.symbol .lbrace) =>
      let pos ← symbol .lbrace
      return .block (← stmtsFrom fuel) pos
    | some (.keyword .intWord) | some (.keyword .booleanWord) =>
      declaration fuel (← primitiveType)
    | some (.ident _) => namedStmt fuel (← identifier)
    | some (.keyword .thisWord) => referenceStmt fuel (← reference)
    | some (.keyword .returnWord) => returnStmt fuel (← keyword .returnWord)
    | some (.keyword .ifWord) =>
      let pos ← keyword .ifWord
      let cond ← condition fuel
      let body ← stmtFrom fuel
      if ← takes (.keyword .elseWord) then
        return .ifElse cond body (← stmtFrom fuel) pos
      else return .ifThen cond body pos
    | some (.keyword .whileWord) =>
      let pos ← keyword .whileWord
      let cond ← condition fuel
      return .loop cond (← stmtFrom fuel) pos
    | _ => stuck

/-- Statements up to a closing brace, which is taken too. -/
def stmtsFrom : Nat → Reading (List Stmt)
  | 0 => stuck
  | fuel + 1 => do
    if ← takes (.symbol .rbrace) then return []
    else
      let first ← stmtFrom fuel
      return first :: (← stmtsFrom fuel)

end

def parameter : Reading ParamDecl := do
  let type ← typeExpr
  let name ← identifier
  return ⟨name.spelling, type, name.pos⟩

def moreParameters : Nat → Reading (List ParamDecl)
  | 0 => stuck
  | fuel + 1 => do
    if ← takes (.symbol .comma) then
      let next ← parameter
      return next :: (← moreParameters fuel)
    else
      let _ ← symbol .rparen
      return []

/-- Parameters between parentheses. -/
def parameters (fuel : Nat) : Reading (List ParamDecl) := do
  let _ ← symbol .lparen
  if ← takes (.symbol .rparen) then return []
  else
    let first ← parameter
    return first :: (← moreParameters fuel)

/-- The rest of a method after its name. -/
def methodRest (fuel : Nat) (isPrivate isStatic : Bool) (result : TypeExpr)
    (name : Identifier) : Reading MethodDecl := do
  let params ← parameters fuel
  let _ ← symbol .lbrace
  let body ← stmtsFrom fuel
  return ⟨⟨name.spelling, result, isPrivate, isStatic, params, name.pos⟩, body⟩

/-- `private`, or not; `public` says nothing more than nothing does. -/
def visibility : Reading Bool := do
  if ← takes (.keyword .publicWord) then return false
  else takes (.keyword .privateWord)

def member (fuel : Nat) : Reading (FieldDecl ⊕ MethodDecl) := do
  let isPrivate ← visibility
  let isStatic ← takes (.keyword .staticWord)
  if (← peek) = some (.keyword .voidWord) then
    let result := TypeExpr.base .void (← keyword .voidWord)
    let name ← identifier
    return .inr (← methodRest fuel isPrivate isStatic result name)
  else
    let type ← typeExpr
    let name ← identifier
    if ← takes (.symbol .semicolon) then
      return .inl ⟨name.spelling, type, isPrivate, isStatic, name.pos⟩
    else return .inr (← methodRest fuel isPrivate isStatic type name)

/-- Members up to a closing brace, which is taken too. -/
def members : Nat → Reading (List (FieldDecl ⊕ MethodDecl))
  | 0 => stuck
  | fuel + 1 => do
    if ← takes (.symbol .rbrace) then return []
    else
      let first ← member fuel
      return first :: (← members fuel)

def classDecl (fuel : Nat) : Reading ClassDecl := do
  let _ ← keyword .classWord
  let name ← identifier
  let _ ← symbol .lbrace
  let members ← members fuel
  return {
    name := name.spelling
    fields := members.filterMap Sum.getLeft?
    methods := members.filterMap Sum.getRight?
    pos := name.pos }

/-- Classes up to the end of the text. -/
def classes : Nat → Reading (List ClassDecl)
  | 0 => stuck
  | fuel + 1 => do
    if (← peek) = none then return []
    else
      let first ← classDecl fuel
      return first :: (← classes fuel)

end Reading

/-- Why a text is no program, and where: at no position if the text ended too early. A number of
too many digits is refused without a diagnostic. -/
inductive ReadFault
  | fault (fault : SourceFault) (pos : Option Nat)
  | longNumber (pos : Nat)
  deriving DecidableEq

namespace ReadFault

/-- What reading ends with when the tokens run out before the program is complete. -/
def ofScanFault : Option (ScanFault × Nat) → ReadFault
  | some (.illegalCharacter c, pos) => .fault (.illegalCharacter c) (some pos)
  | some (.openComment, pos) => .fault .openComment (some pos)
  | some (.longNumber, pos) => .longNumber pos
  | none => .fault .endOfFile none

end ReadFault

namespace Program

/-- More than the depth to which steps call each other on so many tokens. -/
def fuelFor (tokens : List Token) : Nat := 4 * tokens.length + 4

/-- The program that scanned tokens make. A token that cannot go on from those before it is
reported even if the text after it cannot be scanned. -/
def ofScan? (scan : Scan) : Except ReadFault Program :=
  match Reading.classes (fuelFor scan.tokens) scan.tokens with
  | .error _ (token :: _) => .error (.fault (.unexpected token.kind) (some token.pos))
  | .error _ [] => .error (.ofScanFault scan.fault)
  | .ok classes _ =>
    match scan.fault with
    | none => .ok { classes := classes }
    | some fault => .error (.ofScanFault (some fault))

/-- The program that a text is. -/
def ofText? (text : List Char) : Except ReadFault Program := ofScan? (Scan.ofText text)

end Program

end JamCompiler

import JamCompiler.Proofs.Reading.Written
import JamCompiler.Proofs.Reading.Spelling

/-!
# Printing trees

The tokens that a tree is written with. Parentheses stand only around an operand whose operator does
not bind tightly enough for its place: a left operand keeps its operator's level, a right one needs
a higher one, and a unary operator takes no binary one without them. Members of a class are printed
in the order of their positions, and nothing is printed for what a tree does not record.

`Shaped` says which trees the grammar can make: those without foreign nodes, whose numbers are not
negative, whose elements are assigned through a name, and in which no `else` follows an open
statement.
-/

namespace JamCompiler

open Reading (binaryOp?)

def UnaryOp.print : UnaryOp → List TokenKind
  | neg => [.symbol .minus]
  | not => [.symbol .not]
  | other _ => []

def BinaryOp.print : BinaryOp → List TokenKind
  | or => [.symbol .or]
  | and => [.symbol .and]
  | eq => [.symbol .eq]
  | ne => [.symbol .ne]
  | lt => [.symbol .lt]
  | le => [.symbol .le]
  | gt => [.symbol .gt]
  | ge => [.symbol .ge]
  | add => [.symbol .plus]
  | sub => [.symbol .minus]
  | mul => [.symbol .times]
  | div => [.symbol .divide]
  | other _ => []

def TypeExpr.print : TypeExpr → List TokenKind
  | base .int _ => [.keyword .intWord]
  | base .boolean _ => [.keyword .booleanWord]
  | base .void _ => [.keyword .voidWord]
  | base _ _ => []
  | named name _ => [.ident name.spelling]
  | array element _ => element.print ++ [.symbol .lbracket, .symbol .rbracket]
  | unknown .. => []

def Reference.print : Reference → List TokenKind
  | this _ => [.keyword .thisWord]
  | ident name _ => [.ident name.spelling]
  | qualified qualifier name _ => qualifier.print ++ [.symbol .dot, .ident name.spelling]
  | unknown .. => []

/-- Tokens between parentheses. -/
def parenthesized (words : List TokenKind) : List TokenKind :=
  .symbol .lparen :: (words ++ [.symbol .rparen])

mutual

/-- The tokens of an expression in a place where no operator below a level may stand. -/
def Expr.print : Expr → (least : Nat) → List TokenKind
  | .int value _, _ => [.number value.toNat]
  | .bool true _, _ => [.keyword .trueWord]
  | .bool false _, _ => [.keyword .falseWord]
  | .null _, _ => [.keyword .nullWord]
  | .unary op operand _, _ => op.print ++ operand.print operandLevel
  | .binary op left right _, least =>
    let words := left.print op.precedence ++ (op.print ++ right.print (op.precedence + 1))
    if least ≤ op.precedence then words else parenthesized words
  | .ref r _, _ => r.print
  | .index r i _, _ => r.print ++ .symbol .lbracket :: (i.print 1 ++ [.symbol .rbracket])
  | .call method args _, _ => method.print ++ Expr.printArgs args
  | .newObject type _, _ =>
    .keyword .newWord :: (type.print ++ [.symbol .lparen, .symbol .rparen])
  | .newArray element size _, _ =>
    .keyword .newWord ::
      (element.print ++ .symbol .lbracket :: (size.print 1 ++ [.symbol .rbracket]))
  | .unknown .., _ => []

def Expr.printArgs : List Expr → List TokenKind
  | [] => [.symbol .lparen, .symbol .rparen]
  | e :: rest => .symbol .lparen :: (e.print 1 ++ Expr.printMore rest)

def Expr.printMore : List Expr → List TokenKind
  | [] => [.symbol .rparen]
  | e :: rest => .symbol .comma :: (e.print 1 ++ Expr.printMore rest)

end

def Expr.printValue (e : Expr) : List TokenKind :=
  .symbol .assign :: (e.print 1 ++ [.symbol .semicolon])

mutual

def Stmt.print : Stmt → List TokenKind
  | .block stmts _ => .symbol .lbrace :: Stmt.printAll stmts
  | .declare var init _ => var.type.print ++ .ident var.name :: init.printValue
  | .assign target value _ => target.print ++ value.printValue
  | .assignIndex target index value _ =>
    target.print ++ .symbol .lbracket :: (index.print 1 ++ .symbol .rbracket :: value.printValue)
  | .call method args _ => method.print ++ (Expr.printArgs args ++ [.symbol .semicolon])
  | .ret none _ => [.keyword .returnWord, .symbol .semicolon]
  | .ret (some value) _ => .keyword .returnWord :: (value.print 1 ++ [.symbol .semicolon])
  | .ifThen cond body _ => .keyword .ifWord :: (parenthesized (cond.print 1) ++ body.print)
  | .ifElse cond body other _ =>
    .keyword .ifWord ::
      (parenthesized (cond.print 1) ++ (body.print ++ .keyword .elseWord :: other.print))
  | .loop cond body _ => .keyword .whileWord :: (parenthesized (cond.print 1) ++ body.print)
  | .unknown .. => []

/-- Statements with the closing brace. -/
def Stmt.printAll : List Stmt → List TokenKind
  | [] => [.symbol .rbrace]
  | s :: rest => s.print ++ Stmt.printAll rest

end

def ParamDecl.print (p : ParamDecl) : List TokenKind := p.type.print ++ [.ident p.name]

def ParamDecl.printMore : List ParamDecl → List TokenKind
  | [] => [.symbol .rparen]
  | p :: rest => .symbol .comma :: (p.print ++ ParamDecl.printMore rest)

def ParamDecl.printAll : List ParamDecl → List TokenKind
  | [] => [.symbol .lparen, .symbol .rparen]
  | p :: rest => .symbol .lparen :: (p.print ++ ParamDecl.printMore rest)

def printVisibility (isPrivate : Bool) : List TokenKind :=
  if isPrivate then [.keyword .privateWord] else []

def printAccess (isStatic : Bool) : List TokenKind :=
  if isStatic then [.keyword .staticWord] else []

namespace Member

def pos : Member → Nat
  | .inl field => field.pos
  | .inr method => method.head.pos

def print : Member → List TokenKind
  | .inl field => printVisibility field.isPrivate ++ (printAccess field.isStatic ++
      (field.type.print ++ [.ident field.name, .symbol .semicolon]))
  | .inr method => printVisibility method.head.isPrivate ++ (printAccess method.head.isStatic ++
      (method.head.result.print ++ .ident method.head.name ::
        (ParamDecl.printAll method.head.params ++ .symbol .lbrace :: Stmt.printAll method.body)))

/-- Members with the closing brace. -/
def printAll : List Member → List TokenKind
  | [] => [.symbol .rbrace]
  | m :: rest => print m ++ printAll rest

end Member

/-- The members of a class: its fields in their order and its methods in theirs, so that positions
are in order if those of the fields and those of the methods are. -/
def ClassDecl.inOrder (c : ClassDecl) : List Member :=
  List.merge (c.fields.map .inl) (c.methods.map .inr) fun m m' => Member.pos m ≤ Member.pos m'

def ClassDecl.print (c : ClassDecl) : List TokenKind :=
  .keyword .classWord :: .ident c.name :: .symbol .lbrace :: Member.printAll c.inOrder

def ClassDecl.printAll (cs : List ClassDecl) : List TokenKind := cs.flatMap ClassDecl.print

def Program.print (p : Program) : List TokenKind := ClassDecl.printAll p.classes

def Identifier.bare (id : Identifier) : Identifier := { id with pos := 0 }

def TypeExpr.bare : TypeExpr → TypeExpr
  | base type _ => base type 0
  | named name _ => named name.bare 0
  | array element _ => array element.bare 0
  | unknown kind _ => unknown kind 0

def Reference.bare : Reference → Reference
  | this _ => this 0
  | ident name _ => ident name.bare 0
  | qualified qualifier name _ => qualified qualifier.bare name.bare 0
  | unknown kind _ => unknown kind 0

mutual

def Expr.bare : Expr → Expr
  | .int value _ => .int value 0
  | .bool value _ => .bool value 0
  | .null _ => .null 0
  | .unary op operand _ => .unary op operand.bare 0
  | .binary op left right _ => .binary op left.bare right.bare 0
  | .ref r _ => .ref r.bare 0
  | .index r i _ => .index r.bare i.bare 0
  | .call method args _ => .call method.bare (Expr.bareAll args) 0
  | .newObject type _ => .newObject type.bare 0
  | .newArray element size _ => .newArray element.bare size.bare 0
  | .unknown kind _ => .unknown kind 0

def Expr.bareAll : List Expr → List Expr
  | [] => []
  | e :: rest => e.bare :: Expr.bareAll rest

end

def VarDecl.bare (d : VarDecl) : VarDecl := { d with type := d.type.bare, pos := 0 }

mutual

def Stmt.bare : Stmt → Stmt
  | .block stmts _ => .block (Stmt.bareAll stmts) 0
  | .declare var init _ => .declare var.bare init.bare 0
  | .assign target value _ => .assign target.bare value.bare 0
  | .assignIndex target index value _ => .assignIndex target.bare index.bare value.bare 0
  | .call method args _ => .call method.bare (Expr.bareAll args) 0
  | .ret none _ => .ret none 0
  | .ret (some value) _ => .ret (some value.bare) 0
  | .ifThen cond body _ => .ifThen cond.bare body.bare 0
  | .ifElse cond body other _ => .ifElse cond.bare body.bare other.bare 0
  | .loop cond body _ => .loop cond.bare body.bare 0
  | .unknown kind _ => .unknown kind 0

def Stmt.bareAll : List Stmt → List Stmt
  | [] => []
  | s :: rest => s.bare :: Stmt.bareAll rest

end

def FieldDecl.bare (d : FieldDecl) : FieldDecl := { d with type := d.type.bare, pos := 0 }

def ParamDecl.bare (d : ParamDecl) : ParamDecl := { d with type := d.type.bare, pos := 0 }

def MethodHead.bare (head : MethodHead) : MethodHead :=
  { head with result := head.result.bare, params := head.params.map ParamDecl.bare, pos := 0 }

def MethodDecl.bare (m : MethodDecl) : MethodDecl :=
  { head := m.head.bare, body := Stmt.bareAll m.body }

def Member.bare (m : Member) : Member := m.map FieldDecl.bare MethodDecl.bare

def ClassDecl.bare (c : ClassDecl) : ClassDecl :=
  { name := c.name
    fields := c.fields.map FieldDecl.bare
    methods := c.methods.map MethodDecl.bare
    pos := 0 }

/-- A program up to positions. -/
def Program.bare (p : Program) : Program := { classes := p.classes.map ClassDecl.bare, pos := 0 }

namespace TypeExpr

/-- The types of new objects. -/
def IsNamed : TypeExpr → Prop
  | named .. => True
  | _ => False

/-- The types of the elements of new arrays. -/
def IsElement : TypeExpr → Prop
  | base .int _ | named .. => True
  | _ => False

end TypeExpr

mutual

def Expr.Shaped : Expr → Prop
  | .int value _ => 0 ≤ value
  | .bool .. | .null .. => True
  | .unary op operand _ => op.Written ∧ operand.Shaped
  | .binary op left right _ => op.Written ∧ left.Shaped ∧ right.Shaped
  | .ref r _ => r.Written
  | .index r i _ => r.Written ∧ i.Shaped
  | .call method args _ => method.Written ∧ Expr.AllShaped args
  | .newObject type _ => type.IsNamed
  | .newArray element size _ => element.IsElement ∧ size.Shaped
  | .unknown .. => False

def Expr.AllShaped : List Expr → Prop
  | [] => True
  | e :: rest => e.Shaped ∧ Expr.AllShaped rest

end

mutual

def Stmt.Shaped : Stmt → Prop
  | .block stmts _ => Stmt.AllShaped stmts
  | .declare var init _ => var.type.Written ∧ init.Shaped
  | .assign target value _ => target.Written ∧ value.Shaped
  | .assignIndex target index value _ =>
    target.Written ∧ target.Assignable ∧ index.Shaped ∧ value.Shaped
  | .call method args _ => method.Written ∧ Expr.AllShaped args
  | .ret none _ => True
  | .ret (some value) _ => value.Shaped
  | .ifThen cond body _ | .loop cond body _ => cond.Shaped ∧ body.Shaped
  | .ifElse cond body other _ => cond.Shaped ∧ body.Shaped ∧ ¬ body.Open ∧ other.Shaped
  | .unknown .. => False

def Stmt.AllShaped : List Stmt → Prop
  | [] => True
  | s :: rest => s.Shaped ∧ Stmt.AllShaped rest

end

structure MethodDecl.Shaped (m : MethodDecl) : Prop where
  result : m.head.result.WrittenResult
  params : ∀ p ∈ m.head.params, p.type.Written
  body : Stmt.AllShaped m.body

structure ClassDecl.Shaped (c : ClassDecl) : Prop where
  fields : ∀ f ∈ c.fields, f.type.Written
  methods : ∀ m ∈ c.methods, m.Shaped

def Program.Shaped (p : Program) : Prop := ∀ c ∈ p.classes, c.Shaped

end JamCompiler

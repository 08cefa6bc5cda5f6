/-!
# Programs

The tree of a program: classes with fields and methods, statements, expressions, references and
written types. A tree holds what was written and where; what a name refers to, what type an
expression has and where a variable lives are found by later stages and kept beside the tree.

Besides the forms that source text can have, trees may carry `unknown` nodes and operators
outside the language. Every stage refuses those; they let a caller who builds trees by hand learn
where a foreign node was met.
-/

namespace JamCompiler

structure Identifier where
  spelling : String
  pos : Nat
  deriving DecidableEq

/-- The types that are not built from other types. `null` is the type of the literal, `error` that
of an expression already reported, and `unsupported` that of values nothing can be done with. -/
inductive BaseType
  | int
  | boolean
  | void
  | null
  | error
  | unsupported
  deriving DecidableEq

namespace BaseType

def text : BaseType → String
  | int => "int"
  | boolean => "boolean"
  | void => "void"
  | null => "null"
  | error => "error"
  | unsupported => "unsupported"

def all : List BaseType := [int, boolean, void, null, error, unsupported]

def ofText? (text : String) : Option BaseType := all.find? (·.text == text)

theorem ofText?_text (type : BaseType) : ofText? type.text = some type := by
  cases type <;> rfl

end BaseType

/-- A type as written. -/
inductive TypeExpr
  | base (type : BaseType) (pos : Nat)
  | named (name : Identifier) (pos : Nat)
  | array (element : TypeExpr) (pos : Nat)
  | unknown (kind : String) (pos : Nat)
  deriving DecidableEq

namespace TypeExpr

def text : TypeExpr → String
  | base type _ => type.text
  | named name _ => name.spelling
  | array element _ => element.text ++ "[]"
  | unknown kind _ => kind

def pos : TypeExpr → Nat
  | base _ pos | named _ pos | array _ pos | unknown _ pos => pos

def isVoid : TypeExpr → Bool
  | base .void _ => true
  | _ => false

end TypeExpr

structure FieldDecl where
  name : String
  type : TypeExpr
  isPrivate : Bool := false
  isStatic : Bool := false
  pos : Nat := 0
  deriving DecidableEq

structure ParamDecl where
  name : String
  type : TypeExpr
  pos : Nat := 0
  deriving DecidableEq

/-- A local variable. -/
structure VarDecl where
  name : String
  type : TypeExpr
  pos : Nat := 0
  deriving DecidableEq

/-- What can be known of a method without its body. -/
structure MethodHead where
  name : String
  result : TypeExpr
  isPrivate : Bool := false
  isStatic : Bool := false
  params : List ParamDecl := []
  pos : Nat := 0
  deriving DecidableEq

inductive Reference
  | this (pos : Nat)
  | ident (name : Identifier) (pos : Nat)
  | qualified (qualifier : Reference) (name : Identifier) (pos : Nat)
  | unknown (kind : String) (pos : Nat)

def Reference.pos : Reference → Nat
  | this pos | ident _ pos | qualified _ _ pos | unknown _ pos => pos

inductive UnaryOp
  | neg
  | not
  | other (text : String)
  deriving DecidableEq

namespace UnaryOp

def text : UnaryOp → String
  | neg => "-"
  | not => "!"
  | other text => text

def ofText (text : String) : UnaryOp :=
  if text = "-" then neg else if text = "!" then not else other text

end UnaryOp

inductive BinaryOp
  | or
  | and
  | eq
  | ne
  | lt
  | le
  | gt
  | ge
  | add
  | sub
  | mul
  | div
  | other (text : String)
  deriving DecidableEq

namespace BinaryOp

def text : BinaryOp → String
  | or => "||"
  | and => "&&"
  | eq => "=="
  | ne => "!="
  | lt => "<"
  | le => "<="
  | gt => ">"
  | ge => ">="
  | add => "+"
  | sub => "-"
  | mul => "*"
  | div => "/"
  | other text => text

/-- The operators of the language. -/
def all : List BinaryOp := [or, and, eq, ne, lt, le, gt, ge, add, sub, mul, div]

def ofText (text : String) : BinaryOp := (all.find? (·.text == text)).getD (other text)

/-- How tightly an operator binds; all are left associative. -/
def precedence : BinaryOp → Nat
  | or => 1
  | and => 2
  | eq | ne => 3
  | lt | le | gt | ge => 4
  | add | sub => 5
  | mul | div => 6
  | other _ => 0

end BinaryOp

inductive Expr
  | int (value : Int) (pos : Nat)
  | bool (value : Bool) (pos : Nat)
  | null (pos : Nat)
  | unary (op : UnaryOp) (operand : Expr) (pos : Nat)
  | binary (op : BinaryOp) (left right : Expr) (pos : Nat)
  | ref (ref : Reference) (pos : Nat)
  | index (ref : Reference) (index : Expr) (pos : Nat)
  | call (method : Reference) (args : List Expr) (pos : Nat)
  | newObject (type : TypeExpr) (pos : Nat)
  | newArray (element : TypeExpr) (size : Expr) (pos : Nat)
  | unknown (kind : String) (pos : Nat)

def Expr.pos : Expr → Nat
  | int _ pos | bool _ pos | null pos | unary _ _ pos | binary _ _ _ pos | ref _ pos
  | index _ _ pos | call _ _ pos | newObject _ pos | newArray _ _ pos | unknown _ pos => pos

inductive Stmt
  | block (stmts : List Stmt) (pos : Nat)
  | declare (var : VarDecl) (init : Expr) (pos : Nat)
  | assign (target : Reference) (value : Expr) (pos : Nat)
  | assignIndex (target : Reference) (index value : Expr) (pos : Nat)
  | call (method : Reference) (args : List Expr) (pos : Nat)
  | ret (value : Option Expr) (pos : Nat)
  | ifThen (cond : Expr) (body : Stmt) (pos : Nat)
  | ifElse (cond : Expr) (body other : Stmt) (pos : Nat)
  | loop (cond : Expr) (body : Stmt) (pos : Nat)
  | unknown (kind : String) (pos : Nat)

namespace Stmt

def pos : Stmt → Nat
  | block _ pos | declare _ _ pos | assign _ _ pos | assignIndex _ _ _ pos | call _ _ pos
  | ret _ pos | ifThen _ _ pos | ifElse _ _ _ pos | loop _ _ pos | unknown _ pos => pos

def isDeclaration : Stmt → Bool
  | declare .. => true
  | _ => false

def isReturn : Stmt → Bool
  | ret .. => true
  | _ => false

end Stmt

structure MethodDecl where
  head : MethodHead
  body : List Stmt

structure ClassDecl where
  name : String
  fields : List FieldDecl := []
  methods : List MethodDecl := []
  pos : Nat := 0

structure Program where
  classes : List ClassDecl := []
  pos : Nat := 0

end JamCompiler

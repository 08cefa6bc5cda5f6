import JamCompiler.Emission
import JamCompiler.Proofs.Naming.Use
import Mathlib.Logic.Function.Basic

/-!
# Evaluation of bodies

What statements without calls do, as one reads them: expressions have values, variables hold them,
and `&&` and `||` do not look at the right operand if the left one settles them. A division by zero
has no value, and what has no value is not carried out. `Yields` relates a statement and what the
variables hold to what comes of it.
-/

namespace JamCompiler

open Emission (boolWord)

/-- A number, a truth value, or whatever else a variable may hold. -/
inductive Value
  | int (n : Int)
  | bool (b : Bool)
  | other (word : Int)
  deriving DecidableEq

/-- The word that stands for a value. -/
def Value.word : Value → Int
  | int n => n
  | bool b => boolWord b
  | other word => word

/-- The types that expressions without calls are about. -/
inductive Kind
  | int
  | bool
  deriving DecidableEq

def Kind.type : Kind → ValueType
  | int => .base .int
  | bool => .base .boolean

namespace ValueType

/-- The value of a type that a word stands for. -/
def read : ValueType → Int → Value
  | base .int, word => .int word
  | base .boolean, word => .bool (word = 1)
  | _, word => .other word

/-- Whether a type is that of numbers or of truth values. -/
def isScalar : ValueType → Bool
  | base .int | base .boolean => true
  | _ => false

end ValueType

/-- What variables hold. -/
abbrev Store := Decl → Value

namespace UnaryOp

def value? : UnaryOp → Value → Option Value
  | neg, .int n => some (.int (-n))
  | not, .bool b => some (.bool !b)
  | _, _ => none

end UnaryOp

namespace BinaryOp

/-- Whether the value of the left operand is that of the whole. -/
def settles : BinaryOp → Value → Bool
  | and, .bool false | or, .bool true => true
  | _, _ => false

def value? : BinaryOp → Value → Value → Option Value
  | or, .bool a, .bool b => some (.bool (a || b))
  | and, .bool a, .bool b => some (.bool (a && b))
  | eq, .int a, .int b => some (.bool (a = b))
  | eq, .bool a, .bool b => some (.bool (a = b))
  | ne, .int a, .int b => some (.bool (a ≠ b))
  | ne, .bool a, .bool b => some (.bool (a ≠ b))
  | lt, .int a, .int b => some (.bool (a < b))
  | le, .int a, .int b => some (.bool (a ≤ b))
  | gt, .int a, .int b => some (.bool (a > b))
  | ge, .int a, .int b => some (.bool (a ≥ b))
  | add, .int a, .int b => some (.int (a + b))
  | sub, .int a, .int b => some (.int (a - b))
  | mul, .int a, .int b => some (.int (a * b))
  | div, .int a, .int b => if b = 0 then none else some (.int (a.tdiv b))
  | _, _, _ => none

end BinaryOp

/-- Whether a reference is `this` by itself. -/
def Reference.isThis : Reference → Bool
  | this _ => true
  | _ => false

/-- The variable that a reference denotes, if it is a name by itself, a member of `this` or a static
member of a class. -/
def Reference.variableAt? (bound : Site → Option Decl) (site : Site) : Reference → Option Decl
  | ident _ _ => (bound site).bind fun
    | .var home d => some (.var home d)
    | .param home d => some (.param home d)
    | .field (.user home) d => some (.field (.user home) d)
    | _ => none
  | qualified qualifier _ _ => (bound site).bind fun
    | .field (.user home) d =>
      if qualifier.isThis || d.isStatic then some (.field (.user home) d) else none
    | _ => none
  | _ => none

/-- The value of an expression. -/
def Expr.eval? (bound : Site → Option Decl) (σ : Store) (site : Site) : Expr → Option Value
  | .int n _ => some (.int n)
  | .bool b _ => some (.bool b)
  | .unary op operand _ => (operand.eval? bound σ site.operand).bind op.value?
  | .binary op left right _ =>
    (left.eval? bound σ site.left).bind fun a =>
      if op.settles a then some a else (right.eval? bound σ site.right).bind (op.value? a)
  | .ref r _ => (r.variableAt? bound site.target).map σ
  | .null _ | .index .. | .call .. | .newObject .. | .newArray .. | .unknown .. => none

/-- Whether a reference denotes a variable that holds a number or a truth value. -/
def Reference.isScalar (bound : Site → Option Decl) (site : Site) (r : Reference) : Bool :=
  (r.variableAt? bound site).any fun d => (d.type bound).isScalar

/-- Whether an expression is made of numbers, truth values, variables that hold such, and
operators. -/
def Expr.isScalar (bound : Site → Option Decl) (site : Site) : Expr → Bool
  | .int .. | .bool .. => true
  | .unary _ operand _ => operand.isScalar bound site.operand
  | .binary _ left right _ => left.isScalar bound site.left && right.isScalar bound site.right
  | .ref r _ => r.isScalar bound site.target
  | .null _ | .index .. | .call .. | .newObject .. | .newArray .. | .unknown .. => false

mutual

/-- Whether a statement is made of blocks, declarations, assignments, branches, loops and returns
with such expressions. -/
def Stmt.isScalar (bound : Site → Option Decl) (site : Site) : Stmt → Bool
  | .block stmts _ => Stmt.allScalar bound site.stmt 0 stmts
  | .declare var init _ =>
    ((Decl.var site.var var).type bound).isScalar && init.isScalar bound site.init
  | .assign target value _ => target.isScalar bound site.target && value.isScalar bound site.value
  | .ret none _ => true
  | .ret (some value) _ => value.isScalar bound site.value
  | .ifThen cond body _ | .loop cond body _ =>
    cond.isScalar bound site.cond && body.isScalar bound site.thenBranch
  | .ifElse cond body other _ => cond.isScalar bound site.cond &&
      (body.isScalar bound site.thenBranch && other.isScalar bound site.elseBranch)
  | .assignIndex .. | .call .. | .unknown .. => false

/-- The statements of a list from the `k`th on, whose sites are given. -/
def Stmt.allScalar (bound : Site → Option Decl) (sites : Nat → Site) (k : Nat) : List Stmt → Bool
  | [] => true
  | s :: rest => s.isScalar bound (sites k) && Stmt.allScalar bound sites (k + 1) rest

end

/-- Whether the body of a method is made of such statements. -/
def MethodDecl.isScalar (bound : Site → Option Decl) (site : Site) (m : MethodDecl) : Bool :=
  Stmt.allScalar bound site.body 0 m.body

/-- What is carried out: a statement, the statements of a list from one on, or a loop from its
condition on. -/
inductive Part
  | stmt (site : Site) (s : Stmt)
  | stmts (sites : Nat → Site) (k : Nat) (list : List Stmt)
  | test (site : Site) (cond : Expr) (body : Stmt)

/-- What comes of it: it is done, or it returns a value or nothing. -/
inductive Outcome
  | done (σ : Store)
  | returned (value : Option Value) (σ : Store)

section Yields

variable (bound : Site → Option Decl)

inductive Yields : Part → Store → Outcome → Prop
  | block {site : Site} {stmts : List Stmt} {pos : Nat} {σ : Store} {o : Outcome}
      (inner : Yields (.stmts site.stmt 0 stmts) σ o) : Yields (.stmt site (.block stmts pos)) σ o
  | declare {site : Site} {var : VarDecl} {init : Expr} {pos : Nat} {σ : Store} {v : Value}
      (value : init.eval? bound σ site.init = some v) :
      Yields (.stmt site (.declare var init pos)) σ
      (.done (Function.update σ (.var site.var var) v))
  | assign {site : Site} {target : Reference} {value : Expr} {pos : Nat} {σ : Store} {d : Decl}
      {v : Value} (denotes : target.variableAt? bound site.target = some d)
      (given : value.eval? bound σ site.value = some v) :
      Yields (.stmt site (.assign target value pos)) σ (.done (Function.update σ d v))
  | ret {site : Site} {pos : Nat} {σ : Store} :
      Yields (.stmt site (.ret none pos)) σ (.returned none σ)
  | retValue {site : Site} {value : Expr} {pos : Nat} {σ : Store} {v : Value}
      (given : value.eval? bound σ site.value = some v) :
      Yields (.stmt site (.ret (some value) pos)) σ (.returned (some v) σ)
  | thenTrue {site : Site} {cond : Expr} {body : Stmt} {pos : Nat} {σ : Store} {o : Outcome}
      (test : cond.eval? bound σ site.cond = some (.bool true))
      (inner : Yields (.stmt site.thenBranch body) σ o) :
      Yields (.stmt site (.ifThen cond body pos)) σ o
  | thenFalse {site : Site} {cond : Expr} {body : Stmt} {pos : Nat} {σ : Store}
      (test : cond.eval? bound σ site.cond = some (.bool false)) :
      Yields (.stmt site (.ifThen cond body pos)) σ (.done σ)
  | elseTrue {site : Site} {cond : Expr} {body other : Stmt} {pos : Nat} {σ : Store} {o : Outcome}
      (test : cond.eval? bound σ site.cond = some (.bool true))
      (inner : Yields (.stmt site.thenBranch body) σ o) :
      Yields (.stmt site (.ifElse cond body other pos)) σ o
  | elseFalse {site : Site} {cond : Expr} {body other : Stmt} {pos : Nat} {σ : Store} {o : Outcome}
      (test : cond.eval? bound σ site.cond = some (.bool false))
      (inner : Yields (.stmt site.elseBranch other) σ o) :
      Yields (.stmt site (.ifElse cond body other pos)) σ o
  | loop {site : Site} {cond : Expr} {body : Stmt} {pos : Nat} {σ : Store} {o : Outcome}
      (inner : Yields (.test site cond body) σ o) : Yields (.stmt site (.loop cond body pos)) σ o
  | stop {site : Site} {cond : Expr} {body : Stmt} {σ : Store}
      (test : cond.eval? bound σ site.cond = some (.bool false)) :
      Yields (.test site cond body) σ (.done σ)
  | again {site : Site} {cond : Expr} {body : Stmt} {σ σ' : Store} {o : Outcome}
      (test : cond.eval? bound σ site.cond = some (.bool true))
      (inner : Yields (.stmt site.thenBranch body) σ (.done σ'))
      (more : Yields (.test site cond body) σ' o) : Yields (.test site cond body) σ o
  | leave {site : Site} {cond : Expr} {body : Stmt} {σ σ' : Store} {v : Option Value}
      (test : cond.eval? bound σ site.cond = some (.bool true))
      (inner : Yields (.stmt site.thenBranch body) σ (.returned v σ')) :
      Yields (.test site cond body) σ (.returned v σ')
  | nil {sites : Nat → Site} {k : Nat} {σ : Store} : Yields (.stmts sites k []) σ (.done σ)
  | cons {sites : Nat → Site} {k : Nat} {s : Stmt} {rest : List Stmt} {σ σ' : Store} {o : Outcome}
      (first : Yields (.stmt (sites k) s) σ (.done σ'))
      (more : Yields (.stmts sites (k + 1) rest) σ' o) : Yields (.stmts sites k (s :: rest)) σ o
  | consReturned {sites : Nat → Site} {k : Nat} {s : Stmt} {rest : List Stmt} {σ σ' : Store}
      {v : Option Value} (first : Yields (.stmt (sites k) s) σ (.returned v σ')) :
      Yields (.stmts sites k (s :: rest)) σ (.returned v σ')

end Yields

namespace MethodDecl

/-- What a method returns and what the variables hold then; after its last statement a method
returns nothing. -/
def Yields (bound : Site → Option Decl) (site : Site) (m : MethodDecl) (σ : Store)
    (v : Option Value) (σ' : Store) : Prop :=
  JamCompiler.Yields bound (.stmts site.body 0 m.body) σ (.returned v σ') ∨
    v = none ∧ JamCompiler.Yields bound (.stmts site.body 0 m.body) σ (.done σ')

end MethodDecl

end JamCompiler

import JamCompiler.Program
import JamCompiler.Program.Site

/-!
# Declarations

What a name can refer to. A declaration knows its home: the predefined environment, or its site in
the program. Since sites tell nodes apart, two declarations are the same one exactly if they are
equal.

The predefined environment is fixed: the class `String`, whose values cannot be used; the class
`System` with the static field `out`, and the class of its value with the method `println`; and
the field `length` that every array has.
-/

namespace JamCompiler

inductive Home
  | predefined
  | user (site : Site)
  deriving DecidableEq

/-- A class as names refer to it, without its members. -/
structure ClassRef where
  home : Home
  name : String
  pos : Nat := 0
  deriving DecidableEq

inductive Decl
  | cls (ref : ClassRef)
  | field (home : Home) (decl : FieldDecl)
  | method (home : Home) (head : MethodHead)
  | param (site : Site) (decl : ParamDecl)
  | var (site : Site) (decl : VarDecl)
  deriving DecidableEq

namespace Decl

def name : Decl → String
  | cls ref => ref.name
  | field _ d => d.name
  | method _ head => head.name
  | param _ d => d.name
  | var _ d => d.name

def pos : Decl → Nat
  | cls ref => ref.pos
  | field _ d => d.pos
  | method _ head => head.pos
  | param _ d => d.pos
  | var _ d => d.pos

def home : Decl → Home
  | cls ref => ref.home
  | field home _ => home
  | method home _ => home
  | param site _ => .user site
  | var site _ => .user site

/-- Whether a member can be reached without an instance; false for what is no member. -/
def isStatic : Decl → Bool
  | field _ d => d.isStatic
  | method _ head => head.isStatic
  | _ => false

def isPrivate : Decl → Bool
  | field _ d => d.isPrivate
  | method _ head => head.isPrivate
  | _ => false

def isMember : Decl → Bool
  | field .. | method .. => true
  | _ => false

def isMethod : Decl → Bool
  | method .. => true
  | _ => false

end Decl

namespace Predefined

def string : ClassRef := { home := .predefined, name := "String" }

def printStream : ClassRef := { home := .predefined, name := "_PrintStream" }

def system : ClassRef := { home := .predefined, name := "System" }

/-- In the order in which the classes are declared. -/
def classes : List ClassRef := [string, printStream, system]

def println : Decl :=
  .method .predefined
    { name := "println", result := .base .void 0
      params := [{ name := "n", type := .base .int 0 }] }

def out : Decl :=
  .field .predefined
    { name := "out", type := .named { spelling := "_PrintStream", pos := 0 } 0
      isStatic := true }

def length : Decl := .field .predefined { name := "length", type := .base .int 0 }

/-- The members of a predefined class. -/
def members (c : ClassRef) : List Decl :=
  if c = printStream then [println] else if c = system then [out] else []

end Predefined

/-- The classes of a program with their sites. -/
def Program.sitedClasses (p : Program) : List (Site × ClassDecl) :=
  p.classes.mapIdx fun k c => (.classAt k, c)

namespace ClassDecl

/-- The methods of a class with their sites. -/
def sitedMethods (c : ClassDecl) (site : Site) : List (Site × MethodDecl) :=
  c.methods.mapIdx fun k m => (site.method k, m)

def ref (c : ClassDecl) (site : Site) : ClassRef :=
  { home := .user site, name := c.name, pos := c.pos }

def fieldDecls (c : ClassDecl) (site : Site) : List Decl :=
  c.fields.mapIdx fun k f => .field (.user (site.field k)) f

def methodDecls (c : ClassDecl) (site : Site) : List Decl :=
  c.methods.mapIdx fun k m => .method (.user (site.method k)) m.head

/-- Puts a declaration before the first one that does not come earlier in the source. -/
def insertMember (d : Decl) : List Decl → List Decl
  | [] => [d]
  | e :: rest => if d.pos ≤ e.pos then d :: e :: rest else e :: insertMember d rest

theorem insertMember_perm (d : Decl) (rest : List Decl) :
    (insertMember d rest).Perm (d :: rest) := by
  induction rest with
  | nil => exact .refl _
  | cons e rest ih =>
    unfold insertMember
    split
    · exact .refl _
    · exact (ih.cons e).trans (.swap d e rest)

/-- The fields and methods of a class in the order of their positions. Of members at one position
fields come first, and otherwise the earlier in its list. -/
def members (c : ClassDecl) (site : Site) : List Decl :=
  (c.fieldDecls site ++ c.methodDecls site).foldr insertMember []

theorem members_perm (c : ClassDecl) (site : Site) :
    (c.members site).Perm (c.fieldDecls site ++ c.methodDecls site) := by
  unfold members
  induction c.fieldDecls site ++ c.methodDecls site with
  | nil => exact .refl _
  | cons d rest ih => exact (insertMember_perm d _).trans (ih.cons d)

end ClassDecl

/-- The methods of all classes of a program, with their sites, in the order of the classes. -/
def Program.sitedMethods (p : Program) : List (Site × MethodDecl) :=
  p.sitedClasses.flatMap fun (site, c) => c.sitedMethods site

end JamCompiler

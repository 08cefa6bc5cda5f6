import JamCompiler.Declaration

/-!
# Types of values

The type of a value, as opposed to a type as written: a class type knows the class it names, or
that it names none. `compatible` says when a value of one type may stand where the other is
expected. It is a relation on types only; which of the two is expected plays no part.
-/

namespace JamCompiler

inductive ValueType
  | base (type : BaseType)
  | cls (name : String) (ref : Option ClassRef)
  | array (element : ValueType)
  deriving DecidableEq

namespace ValueType

def text : ValueType → String
  | base type => type.text
  | cls name _ => name
  | array element => element.text ++ "[]"

/-- The word for the outermost form of a type. -/
def kind : ValueType → String
  | base type => type.text
  | cls .. => "class"
  | array _ => "array"

def error : ValueType := base .error

/-- The type of the values of a class. -/
def ofClass (c : ClassRef) : ValueType := cls c.name (some c)

/-- Whether nothing can be done with the values of a class: it does not exist, or it is
`String`. -/
def isUnsupportedClass (ref : Option ClassRef) : Bool :=
  ref = none || ref = some Predefined.string

/-- Whether a type is the base type, or the type of what was already reported. -/
def isBase (t : ValueType) (type : BaseType) : Bool := t = base type || t = error

/-- The erroneous type goes with every type and the unsupported one with no other; `null` goes
with every class and array. -/
def compatible : ValueType → ValueType → Bool
  | base .error, _ => true
  | _, base .error => true
  | base .unsupported, _ => false
  | _, base .unsupported => false
  | array s, array t => compatible s t
  | array _, base b => b = .null
  | base b, array _ => b = .null
  | cls _ s, cls _ t => !isUnsupportedClass s && !isUnsupportedClass t && s = t
  | cls .., base b => b = .null
  | base b, cls .. => b = .null
  | array _, cls .. => false
  | cls .., array _ => false
  | base a, base b => a = b

end ValueType

namespace TypeExpr

/-- The type that a written type stands for, given what its class names are bound to. A foreign
node stands for no usable type. -/
def view (bound : Site → Option Decl) : Site → TypeExpr → ValueType
  | _, base type _ => .base type
  | site, named name _ =>
    .cls name.spelling <| match bound site.className with
      | some (.cls ref) => some ref
      | _ => none
  | site, array element _ => .array (element.view bound site.element)
  | _, unknown _ _ => .base .unsupported

/-- The type that a written type of the predefined environment stands for. -/
def predefinedView : TypeExpr → ValueType
  | base type _ => .base type
  | named name _ => .cls name.spelling (Predefined.classes.find? (·.name == name.spelling))
  | array element _ => .array element.predefinedView
  | unknown _ _ => .base .unsupported

/-- The type that the written type of a declaration stands for. -/
def viewAt (bound : Site → Option Decl) : Home → TypeExpr → ValueType
  | .predefined, type => type.predefinedView
  | .user site, type => type.view bound site.type

end TypeExpr

/-- The type of what a declaration declares: of a method its result. -/
def Decl.type (bound : Site → Option Decl) : Decl → ValueType
  | .cls ref => .ofClass ref
  | .field home d => d.type.viewAt bound home
  | .method home head => head.result.viewAt bound home
  | .param site d => d.type.viewAt bound (.user site)
  | .var site d => d.type.viewAt bound (.user site)

namespace MethodHead

/-- The home of a parameter of a method. -/
def paramHome : Home → Nat → Home
  | .predefined, _ => .predefined
  | .user site, k => .user (site.param k)

/-- A method's parameters with their types. -/
def paramTypes (bound : Site → Option Decl) (home : Home) (head : MethodHead) :
    List (ParamDecl × ValueType) :=
  head.params.mapIdx fun k p => (p, p.type.viewAt bound (paramHome home k))

end MethodHead

end JamCompiler

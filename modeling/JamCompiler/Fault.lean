import JamCompiler.Text.Quoted
import JamCompiler.Token.Scan
import JamCompiler.ValueType

/-!
# Faults

What can be wrong with a program, stage by stage, each cause with the values its message shows.
The wording is here and nowhere else: `message` says what is wrong, `hint` what to do about it.
Two faults can have the same message, so a message does not determine its fault.
-/

namespace JamCompiler

/-- The sorts of nodes in a tree. -/
inductive NodeSort
  | type
  | statement
  | expression
  | reference
  deriving DecidableEq

def NodeSort.text : NodeSort → String
  | type => "type"
  | statement => "statement"
  | expression => "expression"
  | reference => "reference"

/-- Faults of the text: it is no sequence of tokens, or the tokens are no program. -/
inductive SourceFault
  | illegalCharacter (c : Char)
  | openComment
  | unexpected (kind : TokenKind)
  | endOfFile
  deriving DecidableEq

namespace SourceFault

def message : SourceFault → String
  | illegalCharacter c =>
    let shown := String.ofList (Text.quoted [c])
    s!"illegal character {shown}"
  | openComment => "comment ran off the end of the source file"
  | unexpected (.symbol .rbrace) => "unexpected '\x7d'"
  | unexpected (.keyword .elseWord) => "unexpected 'else'"
  | unexpected (.keyword word) => s!"unexpected keyword '{word.spelling}'"
  | unexpected kind => s!"unexpected token '{kind.text}'"
  | endOfFile => "unexpected end of file"

def hint : SourceFault → Option String
  | unexpected (.symbol .rbrace) =>
    some "check for missing semicolons or malformed statements before this brace"
  | unexpected (.keyword .elseWord) =>
    some "an 'else' must directly follow the statement of an 'if'"
  | endOfFile => some "check for unclosed braces, parentheses, or missing semicolons"
  | _ => none

end SourceFault

/-- Faults of names and of what they refer to. -/
inductive NameFault
  | duplicateClass (name : String)
  | duplicateMember (name cls : String)
  | previousMember (name : String)
  | duplicate (name : String)
  | hidesLocal (name : String)
  | closedOutermost
  | undeclaredClass (name : String)
  | undeclared (name : String)
  | undeclaredMember (name cls : String)
  | ownInitializer (name : String)
  | thisInStatic
  | instanceFromStatic (name : String)
  | unqualifiedStatic (name cls : String)
  | instanceThroughClass (name cls : String)
  | privateMember (name cls : String)
  | methodQualifier (name : String)
  | arrayMember (name : String)
  | noMembers (name : String) (type : String)
  | notMethod (name : String)
  | loneDeclaration
  | foreign (sort : NodeSort) (kind : String)
  deriving DecidableEq

namespace NameFault

def message : NameFault → String
  | duplicateClass name => s!"duplicate declaration of class '{name}'"
  | duplicateMember name cls => s!"duplicate declaration of member '{name}' in class '{cls}'"
  | previousMember name => s!"previous declaration of '{name}' is here"
  | duplicate name => s!"duplicate declaration of '{name}'"
  | hidesLocal name => s!"declaration of '{name}' hides a parameter or local variable"
  | closedOutermost => "internal error: cannot close the predefined scope"
  | undeclaredClass name => s!"undeclared class '{name}'"
  | undeclared name => s!"undeclared identifier '{name}'"
  | undeclaredMember name cls => s!"undeclared identifier '{name}' in class '{cls}'"
  | ownInitializer name => s!"variable '{name}' cannot be used in its own initializer"
  | thisInStatic => "'this' cannot be used in a static method"
  | instanceFromStatic name =>
    s!"non-static member '{name}' cannot be referenced from a static method"
  | unqualifiedStatic name _ => s!"static member '{name}' must be qualified with its class here"
  | instanceThroughClass name cls =>
    s!"non-static member '{name}' cannot be accessed through class '{cls}'"
  | privateMember name cls => s!"'{name}' is private to class '{cls}'"
  | methodQualifier name => s!"method '{name}' cannot be used as a qualifier"
  | arrayMember name => s!"arrays have no member '{name}'"
  | noMembers name type => s!"'{name}' of type {type} has no members"
  | notMethod name => s!"'{name}' is not a method"
  | loneDeclaration => "a variable declaration cannot be the only statement of a branch"
  | foreign sort kind => s!"internal error: unknown {sort.text} kind '{kind}'"

def hint : NameFault → Option String
  | duplicateMember .. => some "fields and methods of a class share one namespace"
  | hidesLocal _ => some "rename the inner variable"
  | instanceFromStatic _ => some "qualify it with an instance"
  | instanceThroughClass .. => some "qualify it with an instance"
  | unqualifiedStatic name cls => some s!"write {cls}.{name}"
  | loneDeclaration => some "wrap the declaration in a block"
  | _ => none

end NameFault

/-- Faults of types, and of the use of what a name refers to. -/
inductive TypeFault
  | cannotInitialize (name : String) (declared given : ValueType)
  | cannotAssign (given target : ValueType)
  | indexNotInt (given : ValueType)
  | cannotStore (given element : ValueType)
  | notIndexable (type : ValueType)
  | missingValue (method : String) (result : ValueType)
  | valueFromVoid (method : String)
  | wrongReturn (given result : ValueType)
  | condition (statement : String) (given : ValueType)
  | assignToThis
  | assignToClass (name : String)
  | assignToMethod (name : String)
  | lengthReadOnly
  | outReadOnly
  | notMethod (name : String)
  | argumentCount (method : String) (expected given : Nat)
  | argument (param method : String) (expected given : ValueType)
  | unresolved
  | negation (given : ValueType)
  | complement (given : ValueType)
  | unknownUnary (op : String)
  | intOperands (op : String) (left right : ValueType)
  | incomparable (left right : ValueType)
  | booleanOperands (op : String) (left right : ValueType)
  | unknownBinary (op : String)
  | sizeNotInt (given : ValueType)
  | classAsValue (name : String)
  | methodAsValue (name : String)
  | outAsValue
  | foreign (sort : NodeSort) (kind : String)
  deriving DecidableEq

namespace TypeFault

def message : TypeFault → String
  | cannotInitialize name declared given =>
    s!"cannot initialize '{name}' of type {declared.text} with a value of type {given.text}"
  | cannotAssign given target =>
    s!"cannot assign a value of type {given.text} to a target of type {target.text}"
  | indexNotInt given => s!"array index must be int, got {given.text}"
  | cannotStore given element =>
    s!"cannot store a value of type {given.text} into an array of {element.text}"
  | notIndexable type => s!"cannot index into a value of type {type.text}"
  | missingValue method result =>
    s!"missing return value in method '{method}' returning {result.text}"
  | valueFromVoid method => s!"void method '{method}' cannot return a value"
  | wrongReturn given result =>
    s!"cannot return a value of type {given.text} from a method returning {result.text}"
  | condition statement given => s!"{statement} condition must be boolean, got {given.text}"
  | assignToThis => "cannot assign to 'this'"
  | assignToClass name => s!"cannot assign to class '{name}'"
  | assignToMethod name => s!"cannot assign to method '{name}'"
  | lengthReadOnly => "array length is read-only"
  | outReadOnly => "'System.out' is read-only"
  | notMethod name => s!"'{name}' is not a method"
  | argumentCount method expected given =>
    s!"method '{method}' expects {expected} argument(s), got {given}"
  | argument param method expected given =>
    s!"argument '{param}' of '{method}' expects {expected.text}, got {given.text}"
  | unresolved => "internal error: unresolved reference reached type checking"
  | negation given => s!"unary '-' requires an int operand, got {given.text}"
  | complement given => s!"'!' requires a boolean operand, got {given.text}"
  | unknownUnary op => s!"internal error: unknown unary operator '{op}'"
  | intOperands op left right =>
    s!"operator '{op}' requires int operands, got {left.text} and {right.text}"
  | incomparable left right => s!"cannot compare {left.text} with {right.text}"
  | booleanOperands op left right =>
    s!"operator '{op}' requires boolean operands, got {left.text} and {right.text}"
  | unknownBinary op => s!"internal error: unknown binary operator '{op}'"
  | sizeNotInt given => s!"array size must be int, got {given.text}"
  | classAsValue name => s!"class '{name}' cannot be used as a value"
  | methodAsValue name => s!"method '{name}' cannot be used as a value"
  | outAsValue => "'System.out' can only be used to call println"
  | foreign sort kind => s!"internal error: unknown {sort.text} kind '{kind}'"

def hint : TypeFault → Option String
  | methodAsValue _ => some "did you mean to call it?"
  | _ => none

end TypeFault

/-- Faults that keep code from being generated. -/
inductive CodeFault
  | noMain
  | manyMains
  | mainNotStatic
  | mainPrivate
  | mainNotVoid
  | mainParams
  | mainParamType (type : String)
  | missingReturn (method : String)
  | placedTwice (name : String)
  | notPlaced (name : String)
  | unknownUnary (op : String)
  | unknownBinary (op : String)
  | cannotInstantiate (cls : String)
  | notValue
  | notVariable
  | callTarget
  | foreign (sort : NodeSort) (kind : String)
  deriving DecidableEq

namespace CodeFault

def message : CodeFault → String
  | noMain => "no main method found"
  | manyMains => "more than one main method"
  | mainNotStatic => "main method must be static"
  | mainPrivate => "main method must not be private"
  | mainNotVoid => "main method must return void"
  | mainParams => "main method must take exactly one parameter"
  | mainParamType type => s!"main method parameter must be String[], got {type}"
  | missingReturn method => s!"method '{method}' must end with a return statement"
  | placedTwice name => s!"internal error: '{name}' already has a runtime location"
  | notPlaced name => s!"internal error: '{name}' has no runtime location"
  | unknownUnary op => s!"unknown unary operator '{op}'"
  | unknownBinary op => s!"unknown binary operator '{op}'"
  | cannotInstantiate cls => s!"cannot instantiate class '{cls}'"
  | notValue => "reference does not denote a value"
  | notVariable => "assignment target is not a variable"
  | callTarget => "call target is not a method"
  | foreign sort kind => s!"internal error: unknown {sort.text} kind '{kind}'"

def hint : CodeFault → Option String
  | noMain => some "declare 'public static void main(String[] args)'"
  | _ => none

end CodeFault

/-- A fault of any stage, or one that a caller words freely. -/
inductive Fault
  | source (fault : SourceFault)
  | naming (fault : NameFault)
  | typing (fault : TypeFault)
  | code (fault : CodeFault)
  | worded (message : String) (hint : Option String)
  deriving DecidableEq

namespace Fault

def message : Fault → String
  | source f => f.message
  | naming f => f.message
  | typing f => f.message
  | code f => f.message
  | worded message _ => message

def hint : Fault → Option String
  | source f => f.hint
  | naming f => f.hint
  | typing f => f.hint
  | code f => f.hint
  | worded _ hint => hint

end Fault

end JamCompiler

import JamCompiler.Declaration
import JamCompiler.Fault

/-!
# Scope tables

The names in force at a place of a program, and the registries of all classes and members. Scopes
are nested: the predefined one outermost, then that of the classes, of the members of a class, of
the parameters of a method, and of its blocks. A name may be declared anew in an inner scope,
except that nothing inside a method may hide a parameter or a local variable of it.

An operation that is refused gives its fault and no table, so a refusal changes nothing.
-/

namespace JamCompiler

/-- The names declared in a scope. -/
abbrev Scope := List (String × Decl)

/-- The scopes within the predefined one are given from the innermost outwards. The predefined
scope itself cannot be closed. -/
structure ScopeTable where
  predefined : Scope := []
  inner : List Scope := []
  classes : List (String × ClassRef) := []
  members : List ((String × String) × Decl) := []

namespace ScopeTable

/-- How many scopes lie within the predefined one. -/
def level (t : ScopeTable) : Nat := t.inner.length

/-- The level of the scope of a method's parameters. -/
def paramLevel : Nat := 3

def openScope (t : ScopeTable) : ScopeTable := { t with inner := [] :: t.inner }

def closeScope? (t : ScopeTable) : Except NameFault ScopeTable :=
  match t.inner with
  | [] => .error .closedOutermost
  | _ :: outer => .ok { t with inner := outer }

/-- The innermost scope. -/
def current (t : ScopeTable) : Scope := t.inner.head?.getD t.predefined

/-- The scopes around the innermost one that hold parameters or local variables. -/
def enclosingLocals (t : ScopeTable) : List Scope := t.inner.tail.take (t.level - paramLevel)

def holds (scope : Scope) (name : String) : Bool := (scope.lookup name).isSome

/-- Adds a declaration to the innermost scope. -/
def enter? (t : ScopeTable) (d : Decl) : Except NameFault ScopeTable :=
  if holds t.current d.name then .error (.duplicate d.name)
  else if t.enclosingLocals.any (holds · d.name) then .error (.hidesLocal d.name)
  else match t.inner with
    | [] => .ok { t with predefined := (d.name, d) :: t.predefined }
    | scope :: outer => .ok { t with inner := ((d.name, d) :: scope) :: outer }

/-- The declaration of a name in the innermost scope that holds it. -/
def retrieve? (t : ScopeTable) (name : String) : Option Decl :=
  (t.inner ++ [t.predefined]).findSome? (·.lookup name)

def retrieveClass? (t : ScopeTable) (name : String) : Option ClassRef := t.classes.lookup name

def retrieveMember? (t : ScopeTable) (cls name : String) : Option Decl :=
  t.members.lookup (cls, name)

def registerClass? (t : ScopeTable) (c : ClassRef) : Except NameFault ScopeTable :=
  match t.retrieveClass? c.name with
  | some _ => .error (.duplicateClass c.name)
  | none => .ok { t with classes := (c.name, c) :: t.classes }

/-- Registers a member of a class; refused with the member that has the name already. -/
def registerMember? (t : ScopeTable) (c : ClassRef) (d : Decl) : Except Decl ScopeTable :=
  match t.retrieveMember? c.name d.name with
  | some previous => .error previous
  | none => .ok { t with members := ((c.name, d.name), d) :: t.members }

/-- The scopes from the outermost inwards. -/
def scopes (t : ScopeTable) : List Scope := t.predefined :: t.inner.reverse

theorem level_openScope (t : ScopeTable) : t.openScope.level = t.level + 1 := rfl

theorem closeScope?_eq_error_iff {t : ScopeTable} {fault : NameFault} :
    t.closeScope? = .error fault ↔ t.level = 0 ∧ fault = .closedOutermost := by
  unfold closeScope? level
  cases t.inner with
  | nil => simp [eq_comm]
  | cons scope outer => simp

/-- A name that was just declared means its new declaration. -/
theorem retrieve?_enter?_self {t u : ScopeTable} {d : Decl} (h : t.enter? d = .ok u) :
    u.retrieve? d.name = some d := by
  unfold enter? at h
  split at h
  · simp at h
  · split at h
    · simp at h
    · split at h <;> cases h
      · rename_i inner
        simp [retrieve?, inner]
      · simp [retrieve?]

end ScopeTable

end JamCompiler

/-!
# Sites

A site says where in a program's tree a node stands, as the path from the root: child numbers,
the innermost first. Nodes at different places have different sites even if they look alike, so
sites serve as the identities of nodes, and what later stages find out is kept in maps from sites.

The functions below fix the child numbers once. Lists of children hang below a number of their
own, so that a longer list changes no site outside it.
-/

namespace JamCompiler

abbrev Site := List Nat

namespace Site

/-- The child with a number. -/
def child (s : Site) (k : Nat) : Site := k :: s

/-- The `k`th member of the list of children with a number. -/
def item (s : Site) (list k : Nat) : Site := k :: list :: s

def classAt (k : Nat) : Site := [k]

def field (cls : Site) (k : Nat) : Site := cls.item 0 k

def method (cls : Site) (k : Nat) : Site := cls.item 1 k

/-- The written type of a field, parameter or local variable, or the result type of a method. -/
def type (decl : Site) : Site := decl.child 0

def param (method : Site) (k : Nat) : Site := method.item 1 k

def body (method : Site) (k : Nat) : Site := method.item 2 k

def element (type : Site) : Site := type.child 0

def className (type : Site) : Site := type.child 0

def qualifier (ref : Site) : Site := ref.child 0

/-- The identifier of a reference: its whole name, or the last name of a qualified one. -/
def name (ref : Site) : Site := ref.child 1

def operand (e : Site) : Site := e.child 0

def left (e : Site) : Site := e.child 0

def right (e : Site) : Site := e.child 1

/-- The reference that an expression or statement begins with. -/
def target (node : Site) : Site := node.child 0

def index (node : Site) : Site := node.child 1

def value (node : Site) : Site := node.child 2

def arg (call : Site) (k : Nat) : Site := call.item 1 k

def size (e : Site) : Site := e.child 1

def stmt (block : Site) (k : Nat) : Site := block.item 0 k

def var (stmt : Site) : Site := stmt.child 0

def init (stmt : Site) : Site := stmt.child 1

def cond (stmt : Site) : Site := stmt.child 0

def thenBranch (stmt : Site) : Site := stmt.child 1

def elseBranch (stmt : Site) : Site := stmt.child 2

end Site

/-- A map from sites. Entries are only ever added, so a site's value, once there, stays. -/
structure SiteMap (α : Type) where
  entries : List (Site × α) := []

namespace SiteMap

variable {α : Type}

def get? (m : SiteMap α) (s : Site) : Option α := m.entries.lookup s

/-- Gives a site a value unless it has one. -/
def fill (m : SiteMap α) (s : Site) (a : α) : SiteMap α :=
  match m.get? s with
  | some _ => m
  | none => ⟨(s, a) :: m.entries⟩

theorem get?_fill_self (m : SiteMap α) (s : Site) (a : α) :
    (m.fill s a).get? s = some ((m.get? s).getD a) := by
  unfold fill
  cases h : m.get? s with
  | some b => simp [h]
  | none => simp [get?]

theorem get?_fill_of_ne (m : SiteMap α) {s t : Site} (a : α) (h : t ≠ s) :
    (m.fill s a).get? t = m.get? t := by
  unfold fill
  cases m.get? s with
  | some b => rfl
  | none =>
    have other : (t == s) = false := by simpa using h
    simp [get?, List.lookup_cons, other]

/-- What a site holds it keeps. -/
theorem get?_fill_of_some {m : SiteMap α} {s t : Site} {a b : α} (h : m.get? t = some b) :
    (m.fill s a).get? t = some b := by
  by_cases hs : t = s
  · subst hs; simp [get?_fill_self, h]
  · rw [get?_fill_of_ne m a hs, h]

end SiteMap

end JamCompiler

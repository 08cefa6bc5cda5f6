import JamCompiler.Proofs.Frame
import Mathlib.Logic.Equiv.Basic

/-!
# Moving classes

A text whose classes stand in another order has the same trees in other places: a class gets another
number, and it stands further down. `Arrangement` says which number a class gets and by how many
characters it is moved. The operations below carry trees, sites, declarations and types from a list
of classes to a text in which it is arranged. All of them are injective, so what is different stays
different.
-/

namespace JamCompiler

/-- How classes are arranged in a text. -/
structure Arrangement where
  /-- The number that a class gets. -/
  number : Equiv.Perm Nat
  /-- By how many characters a class is moved. -/
  distance : Nat → Nat

def Identifier.shift (n : Nat) (id : Identifier) : Identifier := { id with pos := id.pos + n }

def TypeExpr.shift (n : Nat) : TypeExpr → TypeExpr
  | base type pos => base type (pos + n)
  | named name pos => named (name.shift n) (pos + n)
  | array element pos => array (element.shift n) (pos + n)
  | unknown kind pos => unknown kind (pos + n)

def FieldDecl.shift (n : Nat) (d : FieldDecl) : FieldDecl :=
  { d with type := d.type.shift n, pos := d.pos + n }

def ParamDecl.shift (n : Nat) (d : ParamDecl) : ParamDecl :=
  { d with type := d.type.shift n, pos := d.pos + n }

def VarDecl.shift (n : Nat) (d : VarDecl) : VarDecl :=
  { d with type := d.type.shift n, pos := d.pos + n }

def MethodHead.shift (n : Nat) (head : MethodHead) : MethodHead :=
  { head with
    result := head.result.shift n
    params := head.params.map (·.shift n)
    pos := head.pos + n }

def Reference.shift (n : Nat) : Reference → Reference
  | this pos => this (pos + n)
  | ident name pos => ident (name.shift n) (pos + n)
  | qualified qualifier name pos => qualified (qualifier.shift n) (name.shift n) (pos + n)
  | unknown kind pos => unknown kind (pos + n)

mutual

def Expr.shift (n : Nat) : Expr → Expr
  | .int value pos => .int value (pos + n)
  | .bool value pos => .bool value (pos + n)
  | .null pos => .null (pos + n)
  | .unary op operand pos => .unary op (operand.shift n) (pos + n)
  | .binary op left right pos => .binary op (left.shift n) (right.shift n) (pos + n)
  | .ref r pos => .ref (r.shift n) (pos + n)
  | .index r i pos => .index (r.shift n) (i.shift n) (pos + n)
  | .call method args pos => .call (method.shift n) (Expr.shiftAll n args) (pos + n)
  | .newObject type pos => .newObject (type.shift n) (pos + n)
  | .newArray element size pos => .newArray (element.shift n) (size.shift n) (pos + n)
  | .unknown kind pos => .unknown kind (pos + n)

def Expr.shiftAll (n : Nat) : List Expr → List Expr
  | [] => []
  | e :: rest => e.shift n :: Expr.shiftAll n rest

end

mutual

def Stmt.shift (n : Nat) : Stmt → Stmt
  | .block stmts pos => .block (Stmt.shiftAll n stmts) (pos + n)
  | .declare var init pos => .declare (var.shift n) (init.shift n) (pos + n)
  | .assign target value pos => .assign (target.shift n) (value.shift n) (pos + n)
  | .assignIndex target index value pos =>
    .assignIndex (target.shift n) (index.shift n) (value.shift n) (pos + n)
  | .call method args pos => .call (method.shift n) (Expr.shiftAll n args) (pos + n)
  | .ret none pos => .ret none (pos + n)
  | .ret (some value) pos => .ret (some (value.shift n)) (pos + n)
  | .ifThen cond body pos => .ifThen (cond.shift n) (body.shift n) (pos + n)
  | .ifElse cond body other pos =>
    .ifElse (cond.shift n) (body.shift n) (other.shift n) (pos + n)
  | .loop cond body pos => .loop (cond.shift n) (body.shift n) (pos + n)
  | .unknown kind pos => .unknown kind (pos + n)

def Stmt.shiftAll (n : Nat) : List Stmt → List Stmt
  | [] => []
  | s :: rest => s.shift n :: Stmt.shiftAll n rest

end

def MethodDecl.shift (n : Nat) (m : MethodDecl) : MethodDecl :=
  { head := m.head.shift n, body := Stmt.shiftAll n m.body }

def ClassDecl.shift (n : Nat) (c : ClassDecl) : ClassDecl :=
  { name := c.name
    fields := c.fields.map (·.shift n)
    methods := c.methods.map (·.shift n)
    pos := c.pos + n }

/-- Whether a program consists of the classes of a list, arranged in some way. -/
def Arrangement.Arranges (g : Arrangement) (classes : List ClassDecl) (p : Program) : Prop :=
  ∀ k, p.classes[g.number k]? = (classes[k]?).map (·.shift (g.distance k))

section Injective

variable {n : Nat}

theorem Identifier.shift_injective : Function.Injective (Identifier.shift n) := by
  rintro ⟨spelling, pos⟩ ⟨spelling', pos'⟩ h
  simpa [shift] using h

theorem TypeExpr.shift_injective : Function.Injective (TypeExpr.shift n) := by
  intro t
  induction t with
  | base type pos | unknown type pos =>
    intro t' h
    cases t' <;> simp_all [shift]
  | named name pos =>
    intro t' h
    cases t' <;> simp_all [shift, Identifier.shift_injective.eq_iff]
  | array element pos ih =>
    intro t' h
    cases t' with
    | array element' pos' =>
      simp only [shift, array.injEq, Nat.add_right_cancel_iff] at h
      rw [ih h.1, h.2]
    | base | named | unknown => simp [shift] at h

theorem FieldDecl.shift_injective : Function.Injective (FieldDecl.shift n) := by
  rintro ⟨name, type, isPrivate, isStatic, pos⟩ ⟨name', type', isPrivate', isStatic', pos'⟩ h
  simpa [shift, TypeExpr.shift_injective.eq_iff] using h

theorem ParamDecl.shift_injective : Function.Injective (ParamDecl.shift n) := by
  rintro ⟨name, type, pos⟩ ⟨name', type', pos'⟩ h
  simpa [shift, TypeExpr.shift_injective.eq_iff] using h

theorem VarDecl.shift_injective : Function.Injective (VarDecl.shift n) := by
  rintro ⟨name, type, pos⟩ ⟨name', type', pos'⟩ h
  simpa [shift, TypeExpr.shift_injective.eq_iff] using h

theorem MethodHead.shift_injective : Function.Injective (MethodHead.shift n) := by
  rintro ⟨name, result, isPrivate, isStatic, params, pos⟩
    ⟨name', result', isPrivate', isStatic', params', pos'⟩ h
  simpa [shift, TypeExpr.shift_injective.eq_iff,
    (List.map_injective_iff.mpr ParamDecl.shift_injective).eq_iff] using h

end Injective

namespace Site

variable (g : Arrangement)

/-- The site in its class after the class got another number. -/
def moved : Site → Site
  | [] => []
  | [k] => [g.number k]
  | k :: l :: s => k :: moved (l :: s)

theorem moved_append (front : List Nat) (k : Nat) :
    Site.moved g (front ++ [k]) = front ++ [g.number k] := by
  induction front with
  | nil => rfl
  | cons i front ih =>
    cases front with
    | nil => rfl
    | cons j front => rw [List.cons_append, List.cons_append, moved, ← List.cons_append, ih]; rfl

theorem moved_injective : Function.Injective (moved g) := by
  intro s t h
  induction s using List.reverseRecOn with
  | nil =>
    induction t using List.reverseRecOn with
    | nil => rfl
    | append_singleton front k => simp [moved, moved_append] at h
  | append_singleton front k =>
    induction t using List.reverseRecOn with
    | nil => simp [moved, moved_append] at h
    | append_singleton front' k' =>
      simp only [moved_append, List.append_singleton_inj, g.number.apply_eq_iff_eq] at h
      rw [h.1, h.2]

end Site

namespace Arrangement

variable {g : Arrangement} {k : Nat} {s s' : Site}

/-- Sites in the same place of a class and of the class when it is arranged. -/
def Moves (g : Arrangement) (k : Nat) (s s' : Site) : Prop :=
  ∃ front, s = front ++ [k] ∧ s' = front ++ [g.number k]

namespace Moves

theorem classAt (g : Arrangement) (k : Nat) : g.Moves k (.classAt k) (.classAt (g.number k)) :=
  ⟨[], rfl, rfl⟩

theorem child (h : g.Moves k s s') (i : Nat) : g.Moves k (s.child i) (s'.child i) := by
  obtain ⟨front, rfl, rfl⟩ := h
  exact ⟨i :: front, rfl, rfl⟩

theorem item (h : g.Moves k s s') (list i : Nat) :
    g.Moves k (s.item list i) (s'.item list i) := (h.child list).child i

theorem moved (h : g.Moves k s s') : s.moved g = s' := by
  obtain ⟨front, rfl, rfl⟩ := h
  exact Site.moved_append g front k

theorem classNumber (h : g.Moves k s s') : s.classNumber = k := by
  obtain ⟨front, rfl, -⟩ := h
  exact Site.classNumber_of_suffix ⟨front, rfl⟩

theorem of_suffix (g : Arrangement) (h : Site.classAt k <:+ s) : g.Moves k s (s.moved g) := by
  obtain ⟨front, rfl⟩ := h
  exact ⟨front, rfl, Site.moved_append g front k⟩

end Moves

end Arrangement

namespace Home

variable (g : Arrangement)

def moved : Home → Home
  | predefined => predefined
  | user site => user (site.moved g)

/-- By how many characters what is declared there is moved. -/
def distance : Home → Nat
  | predefined => 0
  | user site => g.distance site.classNumber

theorem moved_injective : Function.Injective (moved g) := by
  rintro (_ | s) (_ | t) h <;> simp_all [moved, (Site.moved_injective g).eq_iff]

end Home

namespace ClassRef

variable (g : Arrangement)

def moved (c : ClassRef) : ClassRef :=
  { c with home := c.home.moved g, pos := c.pos + c.home.distance g }

theorem moved_injective : Function.Injective (moved g) := by
  rintro ⟨home, name, pos⟩ ⟨home', name', pos'⟩ h
  simp only [moved, mk.injEq, (Home.moved_injective g).eq_iff] at h
  obtain ⟨rfl, rfl, pos⟩ := h
  rw [Nat.add_right_cancel pos]

@[simp] theorem moved_name (c : ClassRef) : (c.moved g).name = c.name := rfl

@[simp] theorem moved_inj {c c' : ClassRef} : c.moved g = c'.moved g ↔ c = c' :=
  (moved_injective g).eq_iff

end ClassRef

namespace Decl

variable (g : Arrangement)

def moved : Decl → Decl
  | cls ref => cls (ref.moved g)
  | field home d => field (home.moved g) (d.shift (home.distance g))
  | method home head => method (home.moved g) (head.shift (home.distance g))
  | param site d => param (site.moved g) (d.shift (g.distance site.classNumber))
  | var site d => var (site.moved g) (d.shift (g.distance site.classNumber))

theorem moved_injective : Function.Injective (moved g) := by
  intro d e h
  cases d with
  | cls ref =>
    cases e with
    | cls ref' => simpa [moved] using h
    | field | method | param | var => cases h
  | field home d =>
    cases e with
    | field home' d' =>
      simp only [moved, field.injEq, (Home.moved_injective g).eq_iff] at h
      obtain ⟨rfl, same⟩ := h
      rw [FieldDecl.shift_injective same]
    | cls | method | param | var => cases h
  | method home d =>
    cases e with
    | method home' d' =>
      simp only [moved, method.injEq, (Home.moved_injective g).eq_iff] at h
      obtain ⟨rfl, same⟩ := h
      rw [MethodHead.shift_injective same]
    | cls | field | param | var => cases h
  | param site d =>
    cases e with
    | param site' d' =>
      simp only [moved, param.injEq, (Site.moved_injective g).eq_iff] at h
      obtain ⟨rfl, same⟩ := h
      rw [ParamDecl.shift_injective same]
    | cls | field | method | var => cases h
  | var site d =>
    cases e with
    | var site' d' =>
      simp only [moved, var.injEq, (Site.moved_injective g).eq_iff] at h
      obtain ⟨rfl, same⟩ := h
      rw [VarDecl.shift_injective same]
    | cls | field | method | param => cases h

@[simp] theorem moved_inj {d e : Decl} : d.moved g = e.moved g ↔ d = e :=
  (moved_injective g).eq_iff

@[simp] theorem moved_name (d : Decl) : (d.moved g).name = d.name := by cases d <;> rfl

@[simp] theorem moved_isStatic (d : Decl) : (d.moved g).isStatic = d.isStatic := by cases d <;> rfl

@[simp] theorem moved_isPrivate (d : Decl) : (d.moved g).isPrivate = d.isPrivate := by
  cases d <;> rfl

@[simp] theorem moved_isMember (d : Decl) : (d.moved g).isMember = d.isMember := by cases d <;> rfl

@[simp] theorem moved_isMethod (d : Decl) : (d.moved g).isMethod = d.isMethod := by cases d <;> rfl

@[simp] theorem moved_eq_out {d : Decl} : d.moved g = Predefined.out ↔ d = Predefined.out :=
  moved_inj g (e := Predefined.out)

@[simp] theorem moved_eq_length {d : Decl} :
    d.moved g = Predefined.length ↔ d = Predefined.length :=
  moved_inj g (e := Predefined.length)

end Decl

end JamCompiler

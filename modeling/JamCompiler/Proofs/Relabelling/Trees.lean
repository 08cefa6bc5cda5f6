import JamCompiler.ValueType
import Mathlib.Data.List.Basic
import Mathlib.Order.Monotone.Basic

/-!
# Relabelled trees

A program keeps its form when its names are exchanged for others and its nodes stand at other
positions. A `Relabelling` says what is put for names and positions: different names for different
names, positions in the same order, and names that the compiler itself looks for as they are.

The operations below carry trees, declarations and types along. What is predefined is not written
anywhere: its parameters keep their names, and position zero stays. So the predefined declarations
stay the same, and different declarations become different ones.
-/

namespace JamCompiler

/-- What is put for names, for the names of parameters, and for positions. -/
structure Labels where
  name : String → String
  param : String → String
  place : Nat → Nat

section Trees

variable (L : Labels)

def Identifier.relabel (id : Identifier) : Identifier := ⟨L.name id.spelling, L.place id.pos⟩

def TypeExpr.relabel : TypeExpr → TypeExpr
  | base type pos => base type (L.place pos)
  | named name pos => named (name.relabel L) (L.place pos)
  | array element pos => array element.relabel (L.place pos)
  | unknown kind pos => unknown kind (L.place pos)

def FieldDecl.relabel (d : FieldDecl) : FieldDecl :=
  { d with name := L.name d.name, type := d.type.relabel L, pos := L.place d.pos }

def ParamDecl.relabel (d : ParamDecl) : ParamDecl :=
  { d with name := L.param d.name, type := d.type.relabel L, pos := L.place d.pos }

def VarDecl.relabel (d : VarDecl) : VarDecl :=
  { d with name := L.name d.name, type := d.type.relabel L, pos := L.place d.pos }

def MethodHead.relabel (head : MethodHead) : MethodHead :=
  { head with
    name := L.name head.name
    result := head.result.relabel L
    params := head.params.map (·.relabel L)
    pos := L.place head.pos }

def Reference.relabel : Reference → Reference
  | this pos => this (L.place pos)
  | ident name pos => ident (name.relabel L) (L.place pos)
  | qualified qualifier name pos => qualified qualifier.relabel (name.relabel L) (L.place pos)
  | unknown kind pos => unknown kind (L.place pos)

mutual

def Expr.relabel : Expr → Expr
  | .int value pos => .int value (L.place pos)
  | .bool value pos => .bool value (L.place pos)
  | .null pos => .null (L.place pos)
  | .unary op operand pos => .unary op operand.relabel (L.place pos)
  | .binary op left right pos => .binary op left.relabel right.relabel (L.place pos)
  | .ref r pos => .ref (r.relabel L) (L.place pos)
  | .index r i pos => .index (r.relabel L) i.relabel (L.place pos)
  | .call method args pos => .call (method.relabel L) (Expr.relabelAll args) (L.place pos)
  | .newObject type pos => .newObject (type.relabel L) (L.place pos)
  | .newArray element size pos => .newArray (element.relabel L) size.relabel (L.place pos)
  | .unknown kind pos => .unknown kind (L.place pos)

def Expr.relabelAll : List Expr → List Expr
  | [] => []
  | e :: rest => e.relabel :: Expr.relabelAll rest

end

mutual

def Stmt.relabel : Stmt → Stmt
  | .block stmts pos => .block (Stmt.relabelAll stmts) (L.place pos)
  | .declare var init pos => .declare (var.relabel L) (init.relabel L) (L.place pos)
  | .assign target value pos => .assign (target.relabel L) (value.relabel L) (L.place pos)
  | .assignIndex target index value pos =>
    .assignIndex (target.relabel L) (index.relabel L) (value.relabel L) (L.place pos)
  | .call method args pos => .call (method.relabel L) (Expr.relabelAll L args) (L.place pos)
  | .ret none pos => .ret none (L.place pos)
  | .ret (some value) pos => .ret (some (value.relabel L)) (L.place pos)
  | .ifThen cond body pos => .ifThen (cond.relabel L) body.relabel (L.place pos)
  | .ifElse cond body other pos =>
    .ifElse (cond.relabel L) body.relabel other.relabel (L.place pos)
  | .loop cond body pos => .loop (cond.relabel L) body.relabel (L.place pos)
  | .unknown kind pos => .unknown kind (L.place pos)

def Stmt.relabelAll : List Stmt → List Stmt
  | [] => []
  | s :: rest => s.relabel :: Stmt.relabelAll rest

end

def MethodDecl.relabel (m : MethodDecl) : MethodDecl :=
  { head := m.head.relabel L, body := Stmt.relabelAll L m.body }

def ClassDecl.relabel (c : ClassDecl) : ClassDecl :=
  { name := L.name c.name
    fields := c.fields.map (·.relabel L)
    methods := c.methods.map (·.relabel L)
    pos := L.place c.pos }

def Program.relabel (p : Program) : Program := { p with classes := p.classes.map (·.relabel L) }

end Trees

section Forms

variable {L : Labels}

@[simp] theorem TypeExpr.pos_relabel (t : TypeExpr) : (t.relabel L).pos = L.place t.pos := by
  cases t <;> rfl

@[simp] theorem Reference.pos_relabel (r : Reference) : (r.relabel L).pos = L.place r.pos := by
  cases r <;> rfl

@[simp] theorem Expr.pos_relabel (e : Expr) : (e.relabel L).pos = L.place e.pos := by
  cases e <;> rfl

@[simp] theorem Stmt.pos_relabel (s : Stmt) : (s.relabel L).pos = L.place s.pos := by
  match s with
  | .ret none _ | .ret (some _) _ => rfl
  | .block .. | .declare .. | .assign .. | .assignIndex .. | .call .. | .ifThen .. | .ifElse ..
  | .loop .. | .unknown .. => rfl

@[simp] theorem TypeExpr.isVoid_relabel (t : TypeExpr) : (t.relabel L).isVoid = t.isVoid := by
  cases t with
  | base type pos => cases type <;> rfl
  | named | array | unknown => rfl

@[simp] theorem Stmt.isDeclaration_relabel (s : Stmt) :
    (s.relabel L).isDeclaration = s.isDeclaration := by
  match s with
  | .ret none _ | .ret (some _) _ => rfl
  | .block .. | .declare .. | .assign .. | .assignIndex .. | .call .. | .ifThen .. | .ifElse ..
  | .loop .. | .unknown .. => rfl

@[simp] theorem Stmt.isReturn_relabel (s : Stmt) : (s.relabel L).isReturn = s.isReturn := by
  match s with
  | .ret none _ | .ret (some _) _ => rfl
  | .block .. | .declare .. | .assign .. | .assignIndex .. | .call .. | .ifThen .. | .ifElse ..
  | .loop .. | .unknown .. => rfl

theorem Expr.relabelAll_eq_map (args : List Expr) :
    Expr.relabelAll L args = args.map (·.relabel L) := by
  induction args with
  | nil => rfl
  | cons e rest ih => rw [relabelAll, ih, List.map_cons]

theorem Stmt.relabelAll_eq_map (stmts : List Stmt) :
    Stmt.relabelAll L stmts = stmts.map (·.relabel L) := by
  induction stmts with
  | nil => rfl
  | cons s rest ih => rw [relabelAll, ih, List.map_cons]

@[simp] theorem Expr.length_relabelAll (args : List Expr) :
    (Expr.relabelAll L args).length = args.length := by
  rw [relabelAll_eq_map, List.length_map]

end Forms

/-- Different labels are put for different ones. -/
structure Labels.Injective (L : Labels) : Prop where
  name : Function.Injective L.name
  param : Function.Injective L.param
  place : Function.Injective L.place

section Injective

variable {L : Labels}

theorem Identifier.relabel_injective (h : L.Injective) :
    Function.Injective (Identifier.relabel L) := by
  rintro ⟨spelling, pos⟩ ⟨spelling', pos'⟩ same
  simpa [relabel, h.name.eq_iff, h.place.eq_iff] using same

theorem TypeExpr.relabel_injective (h : L.Injective) : Function.Injective (TypeExpr.relabel L) := by
  intro t
  induction t with
  | base type pos | unknown type pos =>
    intro t' same
    cases t' <;> simp_all [relabel, h.place.eq_iff]
  | named name pos =>
    intro t' same
    cases t' <;> simp_all [relabel, h.place.eq_iff, (Identifier.relabel_injective h).eq_iff]
  | array element pos ih =>
    intro t' same
    cases t' with
    | array element' pos' =>
      simp only [relabel, array.injEq, h.place.eq_iff] at same
      rw [ih same.1, same.2]
    | base | named | unknown => simp [relabel] at same

theorem FieldDecl.relabel_injective (h : L.Injective) :
    Function.Injective (FieldDecl.relabel L) := by
  rintro ⟨name, type, isPrivate, isStatic, pos⟩ ⟨name', type', isPrivate', isStatic', pos'⟩ same
  simpa [relabel, h.name.eq_iff, h.place.eq_iff, (TypeExpr.relabel_injective h).eq_iff] using same

theorem ParamDecl.relabel_injective (h : L.Injective) :
    Function.Injective (ParamDecl.relabel L) := by
  rintro ⟨name, type, pos⟩ ⟨name', type', pos'⟩ same
  simpa [relabel, h.param.eq_iff, h.place.eq_iff, (TypeExpr.relabel_injective h).eq_iff] using same

theorem VarDecl.relabel_injective (h : L.Injective) : Function.Injective (VarDecl.relabel L) := by
  rintro ⟨name, type, pos⟩ ⟨name', type', pos'⟩ same
  simpa [relabel, h.name.eq_iff, h.place.eq_iff, (TypeExpr.relabel_injective h).eq_iff] using same

theorem MethodHead.relabel_injective (h : L.Injective) :
    Function.Injective (MethodHead.relabel L) := by
  rintro ⟨name, result, isPrivate, isStatic, params, pos⟩
    ⟨name', result', isPrivate', isStatic', params', pos'⟩ same
  simpa [relabel, h.name.eq_iff, h.place.eq_iff, (TypeExpr.relabel_injective h).eq_iff,
    (List.map_injective_iff.mpr (ParamDecl.relabel_injective h)).eq_iff] using same

end Injective

/-- The names that the compiler looks for: that of the entry, and those that are predefined. -/
def knownNames : List String :=
  ["main", "String", "System", "_PrintStream", "out", "println", "length"]

/-- What is put for the names and positions of a program. -/
structure Relabelling where
  name : String → String
  place : Nat → Nat
  name_injective : Function.Injective name
  place_strictMono : StrictMono place
  keeps : ∀ n ∈ knownNames, name n = n

namespace Relabelling

variable (ρ : Relabelling)

/-- What is put for positions of what is predefined. It all stands at position zero. -/
def anchored : Nat → Nat
  | 0 => 0
  | k + 1 => ρ.place (k + 1)

theorem anchored_injective : Function.Injective ρ.anchored := by
  have positive : ∀ k, 0 < ρ.place (k + 1) := fun k =>
    Nat.lt_of_le_of_lt (Nat.zero_le _) (ρ.place_strictMono (Nat.zero_lt_succ k))
  rintro (_ | k) (_ | j) same
  · rfl
  · exact absurd same (Nat.ne_of_lt (positive j))
  · exact absurd same.symm (Nat.ne_of_lt (positive k))
  · exact ρ.place_strictMono.injective same

/-- What is put for the labels of what is written in the program. -/
def written : Labels := ⟨ρ.name, ρ.name, ρ.place⟩

/-- What is put for the labels of a declaration at home somewhere. -/
def labels : Home → Labels
  | .predefined => ⟨ρ.name, id, ρ.anchored⟩
  | .user _ => ρ.written

@[simp] theorem labels_name (home : Home) : (ρ.labels home).name = ρ.name := by
  cases home <;> rfl

theorem labels_injective (home : Home) : (ρ.labels home).Injective := by
  cases home with
  | predefined => exact ⟨ρ.name_injective, Function.injective_id, ρ.anchored_injective⟩
  | user site => exact ⟨ρ.name_injective, ρ.name_injective, ρ.place_strictMono.injective⟩

@[simp] theorem name_inj {n m : String} : ρ.name n = ρ.name m ↔ n = m :=
  ρ.name_injective.eq_iff

theorem name_eq_known {n m : String} (known : m ∈ knownNames) : ρ.name n = m ↔ n = m := by
  rw [← ρ.keeps m known, ρ.name_inj, ρ.keeps m known]

end Relabelling

section Declarations

variable (ρ : Relabelling)

namespace ClassRef

def relabel (c : ClassRef) : ClassRef :=
  { c with name := ρ.name c.name, pos := (ρ.labels c.home).place c.pos }

@[simp] theorem relabel_name (c : ClassRef) : (c.relabel ρ).name = ρ.name c.name := rfl

@[simp] theorem relabel_home (c : ClassRef) : (c.relabel ρ).home = c.home := rfl

theorem relabel_injective : Function.Injective (relabel ρ) := by
  rintro ⟨home, name, pos⟩ ⟨home', name', pos'⟩ same
  simp only [relabel, mk.injEq, ρ.name_inj] at same
  obtain ⟨rfl, rfl, place⟩ := same
  rw [(ρ.labels_injective home).place place]

@[simp] theorem relabel_inj {c c' : ClassRef} : c.relabel ρ = c'.relabel ρ ↔ c = c' :=
  (relabel_injective ρ).eq_iff

end ClassRef

namespace Decl

def relabel : Decl → Decl
  | cls ref => cls (ref.relabel ρ)
  | field home d => field home (d.relabel (ρ.labels home))
  | method home head => method home (head.relabel (ρ.labels home))
  | param site d => param site (d.relabel ρ.written)
  | var site d => var site (d.relabel ρ.written)

theorem relabel_injective : Function.Injective (relabel ρ) := by
  intro d e same
  cases d with
  | cls ref =>
    cases e with
    | cls ref' => simpa [relabel] using same
    | field | method | param | var => cases same
  | field home d =>
    cases e with
    | field home' d' =>
      simp only [relabel, field.injEq] at same
      obtain ⟨rfl, same⟩ := same
      rw [FieldDecl.relabel_injective (ρ.labels_injective home) same]
    | cls | method | param | var => cases same
  | method home d =>
    cases e with
    | method home' d' =>
      simp only [relabel, method.injEq] at same
      obtain ⟨rfl, same⟩ := same
      rw [MethodHead.relabel_injective (ρ.labels_injective home) same]
    | cls | field | param | var => cases same
  | param site d =>
    cases e with
    | param site' d' =>
      simp only [relabel, param.injEq] at same
      obtain ⟨rfl, same⟩ := same
      rw [ParamDecl.relabel_injective (ρ.labels_injective (.user site)) same]
    | cls | field | method | var => cases same
  | var site d =>
    cases e with
    | var site' d' =>
      simp only [relabel, var.injEq] at same
      obtain ⟨rfl, same⟩ := same
      rw [VarDecl.relabel_injective (ρ.labels_injective (.user site)) same]
    | cls | field | method | param => cases same

@[simp] theorem relabel_inj {d e : Decl} : d.relabel ρ = e.relabel ρ ↔ d = e :=
  (relabel_injective ρ).eq_iff

@[simp] theorem relabel_name (d : Decl) : (d.relabel ρ).name = ρ.name d.name := by
  cases d <;> simp [relabel, name, FieldDecl.relabel, MethodHead.relabel, ParamDecl.relabel,
    VarDecl.relabel, Relabelling.written]

@[simp] theorem relabel_home (d : Decl) : (d.relabel ρ).home = d.home := by cases d <;> rfl

@[simp] theorem relabel_pos (d : Decl) : (d.relabel ρ).pos = (ρ.labels d.home).place d.pos := by
  cases d <;> rfl

@[simp] theorem relabel_isStatic (d : Decl) : (d.relabel ρ).isStatic = d.isStatic := by
  cases d <;> rfl

@[simp] theorem relabel_isPrivate (d : Decl) : (d.relabel ρ).isPrivate = d.isPrivate := by
  cases d <;> rfl

@[simp] theorem relabel_isMember (d : Decl) : (d.relabel ρ).isMember = d.isMember := by
  cases d <;> rfl

@[simp] theorem relabel_isMethod (d : Decl) : (d.relabel ρ).isMethod = d.isMethod := by
  cases d <;> rfl

end Decl

namespace Predefined

theorem relabel_of_mem_classes {c : ClassRef} (h : c ∈ classes) : c.relabel ρ = c := by
  simp only [classes, List.mem_cons, List.not_mem_nil, or_false] at h
  rcases h with rfl | rfl | rfl <;>
    simp [ClassRef.relabel, string, printStream, system, Relabelling.labels, Relabelling.anchored,
      ρ.keeps "String" (by decide), ρ.keeps "_PrintStream" (by decide),
      ρ.keeps "System" (by decide)]

@[simp] theorem println_relabel : println.relabel ρ = println := by
  simp [Decl.relabel, println, MethodHead.relabel, ParamDecl.relabel, TypeExpr.relabel,
    ρ.keeps "println" (by decide), Relabelling.labels, Relabelling.anchored]

@[simp] theorem out_relabel : out.relabel ρ = out := by
  simp [Decl.relabel, out, FieldDecl.relabel, TypeExpr.relabel, Identifier.relabel,
    ρ.keeps "out" (by decide), ρ.keeps "_PrintStream" (by decide), Relabelling.labels,
    Relabelling.anchored]

@[simp] theorem length_relabel : length.relabel ρ = length := by
  simp [Decl.relabel, length, FieldDecl.relabel, TypeExpr.relabel, ρ.keeps "length" (by decide),
    Relabelling.labels, Relabelling.anchored]

theorem members_relabel (c : ClassRef) :
    members (c.relabel ρ) = (members c).map (Decl.relabel ρ) := by
  have stream : c.relabel ρ = printStream ↔ c = printStream := by
    rw [← relabel_of_mem_classes ρ (c := printStream) (by decide), ClassRef.relabel_inj,
      relabel_of_mem_classes ρ (by decide)]
  have sys : c.relabel ρ = system ↔ c = system := by
    rw [← relabel_of_mem_classes ρ (c := system) (by decide), ClassRef.relabel_inj,
      relabel_of_mem_classes ρ (by decide)]
  simp only [members, stream, sys]
  split
  · simp
  · split <;> simp

end Predefined

namespace Decl

variable {d : Decl}

theorem relabel_eq_out : d.relabel ρ = Predefined.out ↔ d = Predefined.out := by
  conv_lhs => rw [← Predefined.out_relabel ρ, relabel_inj]

theorem relabel_eq_length : d.relabel ρ = Predefined.length ↔ d = Predefined.length := by
  conv_lhs => rw [← Predefined.length_relabel ρ, relabel_inj]

theorem relabel_eq_println : d.relabel ρ = Predefined.println ↔ d = Predefined.println := by
  conv_lhs => rw [← Predefined.println_relabel ρ, relabel_inj]

end Decl

end Declarations

end JamCompiler

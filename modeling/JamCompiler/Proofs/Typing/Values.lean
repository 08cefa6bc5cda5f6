import JamCompiler.Proofs.Naming.Completeness
import JamCompiler.Proofs.Reading.Written
import JamCompiler.Proofs.Typing.Types

/-!
# Types of values

In a program that is written and resolved, what stands for a value has the type of a value: no
variable is of type `void`, and no type is one that stands for an error. The methods that are called
are those of the program, apart from `println`.
-/

namespace JamCompiler

open Typing

namespace ValueType

/-- Whether a type is that of values which the program can make. -/
def Proper : ValueType → Prop
  | base .int | base .boolean | base .null | cls .. => True
  | array element => element.Proper
  | _ => False

/-- The types that fields, parameters and variables are declared with. -/
inductive Declarable : ValueType → Prop
  | int : Declarable (base .int)
  | boolean : Declarable (base .boolean)
  | cls (name : String) (ref : Option ClassRef) : Declarable (cls name ref)
  | ints : Declarable (array (base .int))
  | classes (name : String) (ref : Option ClassRef) : Declarable (array (cls name ref))

theorem Declarable.proper {t : ValueType} (h : t.Declarable) : t.Proper := by
  cases h <;> trivial

/-- What goes where a value is expected is not of type `void`. -/
theorem Proper.ne_void_of_compatible {expected given : ValueType} (h : expected.Proper)
    (fits : expected.compatible given) : given ≠ .base .void := by
  rintro rfl
  cases expected with
  | base b => cases b <;> first | exact h | simp [compatible] at fits
  | cls | array => simp [compatible] at fits

theorem ne_void_of_isBase {type : ValueType} {b : BaseType} (h : type.isBase b)
    (value : b ≠ .void) : type ≠ .base .void := by
  rintro rfl
  simp [isBase, error, value.symm] at h

end ValueType

namespace TypeExpr

variable {type : TypeExpr}

theorem Written.view_declarable (h : type.Written) (bound : Site → Option Decl) (site : Site) :
    (type.view bound site).Declarable := by
  cases h using Written.elim with
  | int => exact .int
  | boolean => exact .boolean
  | named => exact .cls _ _
  | ints => exact .ints
  | nameds => exact .classes _ _

theorem Written.viewAt_declarable (h : type.Written) (bound : Site → Option Decl) (home : Home) :
    (type.viewAt bound home).Declarable := by
  cases home with
  | user site => exact h.view_declarable bound site.type
  | predefined =>
    cases h using Written.elim with
    | int => exact .int
    | boolean => exact .boolean
    | named => exact .cls _ _
    | ints => exact .ints
    | nameds => exact .classes _ _

theorem Written.view_proper (h : type.Written) (bound : Site → Option Decl) (site : Site) :
    (type.view bound site).Proper :=
  (h.view_declarable bound site).proper

/-- The type of a result is `void` or one that a variable can be declared with. -/
theorem WrittenResult.viewAt_cases (h : type.WrittenResult) (bound : Site → Option Decl)
    (home : Home) : (type.viewAt bound home).Declarable ∨ type.viewAt bound home = .base .void := by
  rcases h.cases with written | ⟨pos, rfl⟩
  · exact .inl (written.viewAt_declarable bound home)
  · cases home <;> exact .inr rfl

end TypeExpr

namespace Use

/-- Whether the type that is written at a use, if any, is that of a variable. -/
def Written : Use → Prop
  | type _ t => t.Written
  | _ => True

end Use

mutual

theorem Expr.written_uses {names : Resolving.Context} {locals : Scope} {site : Site} (e : Expr)
    (h : e.Written) : ∀ u ∈ e.uses names locals site, u.Written := by
  match e with
  | .int .. | .bool .. | .null .. => simp [uses]
  | .unknown .. => exact h.elim
  | .unary _ operand _ => exact operand.written_uses h.2
  | .binary _ left right _ =>
    exact List.forall_mem_append.mpr ⟨left.written_uses h.2.1, right.written_uses h.2.2⟩
  | .ref r _ => simp [uses, Use.Written]
  | .index r i _ => exact List.forall_mem_cons.mpr ⟨trivial, i.written_uses h.2⟩
  | .call method args _ => exact List.forall_mem_cons.mpr ⟨trivial, Expr.written_argUses args h.2⟩
  | .newObject type _ => exact List.forall_mem_singleton.mpr h
  | .newArray element size _ => exact List.forall_mem_cons.mpr ⟨h.1, size.written_uses h.2⟩

theorem Expr.written_argUses {names : Resolving.Context} {locals : Scope} {call : Site} {k : Nat}
    (args : List Expr) (h : Expr.AllWritten args) :
    ∀ u ∈ Expr.argUses names locals call k args, u.Written := by
  match args with
  | [] => simp [argUses]
  | e :: rest =>
    exact List.forall_mem_append.mpr ⟨e.written_uses h.1, Expr.written_argUses rest h.2⟩

end

mutual

/-- The types written in a body are those of variables. -/
theorem Stmt.written_uses {names : Resolving.Context} {locals : Scope} {site : Site} (s : Stmt)
    (h : s.Written) : ∀ u ∈ s.uses names locals site, u.Written := by
  match s with
  | .unknown .. => exact h.elim
  | .block stmts _ => exact Stmt.written_usesFrom stmts h
  | .declare var init _ =>
    exact List.forall_mem_cons.mpr ⟨h.1, List.forall_mem_cons.mpr ⟨trivial, init.written_uses h.2⟩⟩
  | .assign target value _ => exact List.forall_mem_cons.mpr ⟨trivial, value.written_uses h.2⟩
  | .assignIndex target index value _ =>
    exact List.forall_mem_cons.mpr ⟨trivial, List.forall_mem_append.mpr
      ⟨index.written_uses h.2.1, value.written_uses h.2.2⟩⟩
  | .call method args _ => exact List.forall_mem_cons.mpr ⟨trivial, Expr.written_argUses args h.2⟩
  | .ret none _ => simp [uses]
  | .ret (some value) _ => exact value.written_uses h
  | .ifThen cond body _ | .loop cond body _ =>
    exact List.forall_mem_append.mpr ⟨cond.written_uses h.1,
      List.forall_mem_cons.mpr ⟨trivial, body.written_uses h.2⟩⟩
  | .ifElse cond body other _ =>
    exact List.forall_mem_append.mpr ⟨cond.written_uses h.1, List.forall_mem_cons.mpr ⟨trivial,
      List.forall_mem_append.mpr ⟨body.written_uses h.2.1,
        List.forall_mem_cons.mpr ⟨trivial, other.written_uses h.2.2⟩⟩⟩⟩

theorem Stmt.written_usesFrom {names : Resolving.Context} {locals : Scope} {sites : Nat → Site}
    {k : Nat} (stmts : List Stmt) (h : Stmt.AllWritten stmts) :
    ∀ u ∈ Stmt.usesFrom names locals sites k stmts, u.Written := by
  match stmts with
  | [] => simp [usesFrom]
  | s :: rest =>
    exact List.forall_mem_append.mpr ⟨s.written_uses h.1, Stmt.written_usesFrom rest h.2⟩

end

/-- What can be assigned to stands for a value as well. -/
theorem Typing.valueType_of_targetType {bound : Site → Option Decl} {site : Site} {r : Reference}
    {type : ValueType} (h : targetType? bound site r = some type) :
    valueType? bound site r = some type := by
  obtain ⟨d, found, typed⟩ := Option.bind_eq_some_iff.mp h
  rw [valueType?, found, Option.bind_some]
  cases r with
  | this pos => cases typed
  | ident | qualified | unknown =>
    cases d with
    | cls | method => cases typed
    | field | param | var =>
      dsimp only at typed ⊢
      split at typed
      · cases typed
      · exact typed

namespace Program

variable {p : Program}

/-- Whether a method can be called: `println`, and the methods of the program. -/
def HasMethod (p : Program) (home : Home) (head : MethodHead) : Prop :=
  Decl.method home head = Predefined.println ∨
    ∃ s ∈ p.sitedMethods, home = .user s.1 ∧ head = s.2.head

/-- Whether a reference has the type of a value where it stands for one, and denotes a method that
can be called where it denotes one. -/
structure Sound (p : Program) (bound : Site → Option Decl) (l : Site × Reference) : Prop where
  value : ∀ type, valueType? bound l.1 l.2 = some type → type.Proper
  method : ∀ home head, bound l.1 = some (.method home head) → p.HasMethod home head

theorem Sound.target {bound : Site → Option Decl} {l : Site × Reference} (h : p.Sound bound l)
    {type : ValueType} (typed : targetType? bound l.1 l.2 = some type) : type.Proper :=
  h.value type (valueType_of_targetType typed)

/-- The declarations of fields, and of the locals in force in a body, have types of values. -/
theorem proper_of_origin (written : p.Written) (bound : Site → Option Decl) {d : Decl} {k : Nat}
    {locals : Scope}
    (known : ∀ q ∈ locals, (∃ site prm, q.2 = .param site prm ∧ prm.type.Written) ∨
      ∃ site var, q.2 = .var site var ∧ var.type.Written)
    (origin : (∃ name, locals.lookup name = some d) ∨
      (∃ c name, (p.globals k).members c name = some d) ∨ d = Predefined.length)
    (notOut : d ≠ Predefined.out) :
    (d.isMethod = false → (∀ c, d ≠ .cls c) → (d.type bound).Proper) ∧
      ∀ home head, d = .method home head → p.HasMethod home head := by
  rcases origin with ⟨name, found⟩ | ⟨c, name, found⟩ | rfl
  · rcases known _ (mem_of_lookup found) with ⟨site, prm, same, type⟩ | ⟨site, var, same, type⟩
    · obtain rfl : d = _ := same
      exact ⟨fun _ _ => type.view_proper _ _, by rintro _ _ ⟨⟩⟩
    · obtain rfl : d = _ := same
      exact ⟨fun _ _ => type.view_proper _ _, by rintro _ _ ⟨⟩⟩
  · rcases member_cases (mem_of_lookup found) with ⟨-, rfl | rfl⟩ | ⟨j, c, hj, hd, -⟩
    · exact ⟨by rintro ⟨⟩, fun home head same => .inl same.symm⟩
    · exact absurd rfl notOut
    · rcases ClassDecl.mem_members.mp hd with ⟨i, f, hf, rfl⟩ | ⟨i, m, hm, rfl⟩
      · have type := (written c (List.mem_of_getElem? hj)).fields f (List.mem_of_getElem? hf)
        exact ⟨fun _ _ => type.view_proper _ _, by rintro _ _ ⟨⟩⟩
      · refine ⟨by rintro ⟨⟩, fun home head same => .inr ⟨((Site.classAt j).method i, m), ?_, ?_⟩⟩
        · refine mem_sitedMethods.mpr ⟨j, c, hj, ?_⟩
          exact List.mem_iff_getElem?.mpr ⟨i, by simp [ClassDecl.sitedMethods, hm]⟩
        · cases same
          exact ⟨rfl, rfl⟩
  · exact ⟨fun _ _ => trivial, by rintro _ _ ⟨⟩⟩

/-- The references of a program that is written and resolved are sound. -/
theorem Settled.sound {bound : Site → Option Decl} (settled : p.Settled bound)
    (resolvable : p.Resolvable) (written : p.Written) {u : Use} (hu : u ∈ p.uses)
    {l : Site × Reference} (hl : l ∈ u.references) : p.Sound bound l := by
  obtain ⟨k, c, ctx, hk, hu, resolved⟩ := settled.resolved resolvable hu hl
  obtain ⟨site, m, hm, body⟩ := ClassDecl.mem_bodyUses hu hl
  have types :=
    (written c (List.mem_of_getElem? hk)).methods m (ClassDecl.mem_of_mem_sitedMethods hm)
  have known : ∀ q ∈ u.inForce, (∃ site prm, q.2 = .param site prm ∧ prm.type.Written) ∨
      ∃ site var, q.2 = .var site var ∧ var.type.Written := by
    intro q hq
    rcases MethodDecl.inForce_of_bodyUses body hq with ⟨i, prm, found, rfl⟩ | ⟨site', var, rfl, hv⟩
    · exact .inl ⟨_, prm, rfl, types.params prm (List.mem_of_getElem? found)⟩
    · exact .inr ⟨_, var, rfl, Stmt.written_usesFrom m.body types.body _ hv⟩
  have denoted : ∀ d, bound l.1 = some d →
      l.2.denote? (p.globals k) ctx u.inForce = some (some d) := by
    intro d found
    rw [resolved.bound_self] at found
    exact Option.join_eq_some_iff.mp found
  constructor
  · intro type typed
    obtain ⟨d, found, typed⟩ := Option.bind_eq_some_iff.mp typed
    have meaning := denoted d found
    obtain ⟨site', r⟩ := l
    cases r with
    | this pos =>
      simp only [Reference.denote?] at meaning
      split at meaning
      · cases meaning
      · cases meaning
        cases typed
        trivial
    | ident | qualified | unknown =>
      cases d with
      | cls | method => cases typed
      | field | param | var =>
        dsimp only at typed
        split at typed
        · cases typed
        · rename_i notOut
          cases typed
          have origin := Globals.origin_of_denote meaning (by rintro _ ⟨⟩)
          exact (proper_of_origin written bound known origin notOut).1 rfl (by rintro _ ⟨⟩)
  · intro home head found
    have origin := Globals.origin_of_denote (denoted _ found) (by rintro _ ⟨⟩)
    exact (proper_of_origin written bound known origin (by simp [Predefined.out])).2 home head rfl

end Program

end JamCompiler

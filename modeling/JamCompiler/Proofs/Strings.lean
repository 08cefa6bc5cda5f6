import JamCompiler.Proofs.Checking
import JamCompiler.Proofs.Typing.Compatibility

/-!
# Values of String

Nothing goes with the class `String`, or with a class that is not declared, but `null` and what was
already reported: like every class they take `null`. In an accepted program types meet where a value
is stored, passed, returned or compared. There a place for a `String` gets nothing but `null`, so
that every value of `String` is `null`; and it goes nowhere, but can be compared with `null`.
-/

namespace JamCompiler

open Typing (Context)

namespace ValueType

variable {name : String} {ref : Option ClassRef}

theorem compatible_unsupported_iff (unsupported : isUnsupportedClass ref) (t : ValueType) :
    compatible (cls name ref) t ↔ t = error ∨ t = base .null := by
  cases t with
  | base b => cases b <;> simp [compatible, error]
  | cls name' ref' => simp [compatible, error, unsupported]
  | array element => simp [compatible, error]

theorem eq_null_of_matches {t : ValueType} (h : (cls name ref).Matches t)
    (unsupported : isUnsupportedClass ref) : t = base .null := by
  cases h with
  | classNull => rfl
  | cls usable => simp [isUnsupportedClass, usable] at unsupported

theorem eq_null_of_matches' {s : ValueType} (h : s.Matches (cls name ref))
    (unsupported : isUnsupportedClass ref) : s = base .null := by
  cases h with
  | nullClass => rfl
  | cls usable => simp [isUnsupportedClass, usable] at unsupported

end ValueType

/-- Where a value stands that has to go with a type. -/
inductive Meeting
  | initialization
  | assignment
  | element
  | argument
  | comparison
  | result
  deriving DecidableEq

/-- The types that meet in an expression itself: that of a parameter and that of its argument, or
those of the operands of a comparison. -/
inductive Expr.Meets (bound : Site → Option Decl) (site : Site) :
    Expr → Meeting → ValueType → ValueType → Prop
  | comparison {op : BinaryOp} {a b : Expr} {pos : Nat} {s t : ValueType}
      (known : op ∈ BinaryOp.equality)
      (left : a.HasType bound site.left s) (right : b.HasType bound site.right t) :
    Meets bound site (.binary op a b pos) .comparison s t
  | argument {r : Reference} {args : List Expr} {pos k : Nat} {home : Home}
      {head : MethodHead} {e : Expr}
      {param : ParamDecl × ValueType} {t : ValueType}
      (method : bound site.target = some (.method home head))
      (expected : (head.paramTypes bound home)[k]? = some param) (arg : args[k]? = some e)
      (given : e.HasType bound (site.arg k) t) :
    Meets bound site (.call r args pos) .argument param.2 t

/-- The types that meet in a statement, but not in the expressions in it: that of a place and that
of what is put there. -/
inductive Stmt.Meets (ctx : Context) : Site → Stmt → Meeting → ValueType → ValueType → Prop
  | initialization {site : Site} {var : VarDecl} {init : Expr} {pos : Nat} {t : ValueType}
      (given : init.HasType ctx.bound site.init t) :
    Meets ctx site (.declare var init pos) .initialization (var.type.view ctx.bound site.var.type) t
  | assignment {site : Site} {r : Reference} {value : Expr} {pos : Nat} {s t : ValueType}
      (target : r.Holds ctx.bound site.target s) (given : value.HasType ctx.bound site.value t) :
    Meets ctx site (.assign r value pos) .assignment s t
  | element {site : Site} {r : Reference} {index value : Expr} {pos : Nat} {s t : ValueType}
      (target : r.Holds ctx.bound site.target (.array s))
      (given : value.HasType ctx.bound site.value t) :
    Meets ctx site (.assignIndex r index value pos) .element s t
  | call {site : Site} {r : Reference} {args : List Expr} {pos : Nat}
      {m : Meeting} {s t : ValueType}
      (inner : (Expr.call r args pos).Meets ctx.bound site m s t) :
    Meets ctx site (.call r args pos) m s t
  | result {site : Site} {value : Expr} {pos : Nat} {t : ValueType}
      (given : value.HasType ctx.bound site.value t) :
    Meets ctx site (.ret (some value) pos) .result ctx.result t
  | block {site : Site} {stmts : List Stmt} {pos k : Nat} {stmt : Stmt}
      {m : Meeting} {s t : ValueType}
      (within : stmts[k]? = some stmt) (inner : Meets ctx (site.stmt k) stmt m s t) :
    Meets ctx site (.block stmts pos) m s t
  | ifThen {site : Site} {cond : Expr} {body : Stmt} {pos : Nat} {m : Meeting} {s t : ValueType}
      (inner : Meets ctx site.thenBranch body m s t) : Meets ctx site (.ifThen cond body pos) m s t
  | ifElseThen {site : Site} {cond : Expr} {body other : Stmt} {pos : Nat}
      {m : Meeting} {s t : ValueType}
      (inner : Meets ctx site.thenBranch body m s t) :
    Meets ctx site (.ifElse cond body other pos) m s t
  | ifElseElse {site : Site} {cond : Expr} {body other : Stmt} {pos : Nat}
      {m : Meeting} {s t : ValueType}
      (inner : Meets ctx site.elseBranch other m s t) :
    Meets ctx site (.ifElse cond body other pos) m s t
  | loop {site : Site} {cond : Expr} {body : Stmt} {pos : Nat} {m : Meeting} {s t : ValueType}
      (inner : Meets ctx site.thenBranch body m s t) : Meets ctx site (.loop cond body pos) m s t

/-- The types that meet in the bodies of a program. -/
def Program.Meets (p : Program) (bound : Site → Option Decl) (m : Meeting)
    (s t : ValueType) : Prop :=
  (∃ n ∈ p.exprNodes, n.2.Meets bound n.1 m s t) ∨
    ∃ method ∈ p.sitedMethods, ∃ k, ∃ stmt : Stmt, method.2.body[k]? = some stmt ∧
      stmt.Meets ⟨bound, .user method.1, method.2.head⟩ (method.1.body k) m s t

section Matching

variable {bound : Site → Option Decl} {m : Meeting} {s t : ValueType}

theorem Reference.Holds.unique {site : Site} {r : Reference} (h : r.Holds bound site s)
    (h' : r.Holds bound site t) : s = t :=
  Option.some.inj ((Reference.holds_iff.mp h).symm.trans (Reference.holds_iff.mp h'))

theorem Expr.HasType.matches_of_meets {site : Site} {e : Expr} {u : ValueType}
    (typed : e.HasType bound site u) (meets : e.Meets bound site m s t) : s.Matches t := by
  cases meets with
  | comparison known left right =>
    cases typed with
    | equality _ left' right' same =>
      obtain rfl := left.unique left'
      obtain rfl := right.unique right'
      exact same
    | arithmetic known' | relational known' | logical known' =>
      simp only [BinaryOp.equality, BinaryOp.arithmetic, BinaryOp.relational, BinaryOp.logical,
        List.mem_cons, List.not_mem_nil] at known known'
      grind
  | @argument r es pos k home head e param t method expected arg given =>
    cases typed with
    | call method' count args fit =>
      cases method.symm.trans method'
      obtain ⟨count', each⟩ := List.forall₂_iff_get.mp fit
      obtain ⟨hk, rfl⟩ := List.getElem?_eq_some_iff.mp expected
      have given' := args k _ _ arg (List.getElem?_eq_getElem (count' ▸ hk))
      rw [given.unique given']
      exact each k (count' ▸ hk) hk

theorem Stmt.Derivable.matches_of_meets {ctx : Context} {ofVoid : Bool} {site : Site} {stmt : Stmt}
    (derivable : stmt.Derivable ctx ofVoid site) (meets : stmt.Meets ctx site m s t) :
    s.Matches t := by
  induction meets with
  | initialization given =>
    cases derivable with
    | declare typed same => exact given.unique typed ▸ same
  | assignment target given =>
    cases derivable with
    | assign target' typed same =>
      obtain rfl := target.unique target'
      exact given.unique typed ▸ same
  | element target given =>
    cases derivable with
    | assignIndex target' index typed same =>
      cases target.unique target'
      exact given.unique typed ▸ same
  | call inner =>
    cases derivable with
    | call typed => exact typed.matches_of_meets inner
  | result given =>
    cases derivable with
    | retValue typed same => exact given.unique typed ▸ same
  | block within inner ih =>
    cases derivable with
    | block all => exact ih (all _ _ within)
  | ifThen inner ih =>
    cases derivable with
    | ifThen cond body => exact ih body
  | ifElseThen inner ih =>
    cases derivable with
    | ifElse cond body other => exact ih body
  | ifElseElse inner ih =>
    cases derivable with
    | ifElse cond body other => exact ih other
  | loop inner ih =>
    cases derivable with
    | loop cond body => exact ih body

end Matching

theorem ValueType.Declarable.definite {t : ValueType} (h : t.Declarable) : t.Definite := by
  cases h with
  | int | boolean | ints => exact ⟨BaseType.noConfusion, BaseType.noConfusion⟩
  | cls | classes => trivial

theorem TypeExpr.Written.viewAt_definite {type : TypeExpr} (h : type.Written)
    (bound : Site → Option Decl) (home : Home) : (type.viewAt bound home).Definite :=
  (h.viewAt_declarable bound home).definite

theorem TypeExpr.WrittenResult.viewAt_definite {type : TypeExpr} (h : type.WrittenResult)
    (bound : Site → Option Decl) (home : Home) : (type.viewAt bound home).Definite := by
  rcases h.viewAt_cases bound home with declarable | isVoid
  · exact declarable.definite
  · rw [isVoid]
    exact ⟨nofun, nofun⟩

theorem Stmt.AllWritten.forall_mem {stmts : List Stmt} (h : Stmt.AllWritten stmts) :
    ∀ s ∈ stmts, s.Written := by
  induction stmts with
  | nil => exact nofun
  | cons s rest ih => exact List.forall_mem_cons.mpr ⟨h.1, ih h.2⟩

section Declared

variable {bound : Site → Option Decl} (declared : ∀ site d, bound site = some d → d.Written)
  {m : Meeting} {s t : ValueType}
include declared

theorem Reference.Holds.definite {site : Site} {r : Reference} (h : r.Holds bound site t) :
    t.Definite := by
  cases h with
  | @stored d named known isVariable usable writable =>
    have written := declared _ _ known
    cases d with
    | cls | method => exact isVariable.elim
    | field home f => exact TypeExpr.Written.viewAt_definite written bound home
    | param site q | var site v => exact TypeExpr.Written.viewAt_definite written bound (.user site)

/-- What a value goes to, if it is not compared, has a declared type. -/
theorem Expr.Meets.definite {site : Site} {e : Expr} (h : e.Meets bound site m s t) :
    m = .comparison ∨ s.Definite := by
  cases h with
  | comparison => exact .inl rfl
  | @argument r args pos k home head e param t method expected arg given =>
    obtain ⟨i, hi, rfl⟩ := List.mem_mapIdx.mp (List.mem_of_getElem? expected)
    have written := (declared _ _ method).2 _ (List.getElem_mem hi)
    exact .inr (written.viewAt_definite bound _)

theorem Stmt.Meets.definite {home : Home} {head : MethodHead} {site : Site} {stmt : Stmt}
    (result : head.result.WrittenResult) (types : stmt.Written)
    (h : stmt.Meets ⟨bound, home, head⟩ site m s t) : m = .comparison ∨ s.Definite := by
  induction h with
  | initialization => exact .inr (types.1.viewAt_definite bound (.user _))
  | assignment target => exact .inr (target.definite declared)
  | element target => exact .inr (target.definite declared)
  | call inner => exact inner.definite declared
  | result => exact .inr (result.viewAt_definite bound home)
  | block within inner ih => exact ih (types.forall_mem _ (List.mem_of_getElem? within))
  | ifThen inner ih | loop inner ih => exact ih types.2
  | ifElseThen inner ih => exact ih types.2.1
  | ifElseElse inner ih => exact ih types.2.2

end Declared

/-- What the check of an accepted program relied on. -/
theorem derivable_of_compile {text : List Char} {failFast : Bool} {r : CompileResult}
    (compiled : compile text failFast = .ok r) (success : r.status = .success) :
    ∃ p c, Program.ofText? text = .ok p ∧ r.compilation = some c ∧ p.Written ∧
      (∀ site d, c.bindings.get? site = some d → d.Written) ∧ p.WellTyped c.bindings.get? := by
  obtain ⟨p, c, c₁, c₂, t, o, parsed, resolved, clean, checked, clean₁,
      generated, compilation, -⟩ :=
    stages_of_compile compiled success
  obtain ⟨passed, -⟩ := Program.checked_of_stages parsed resolved clean checked clean₁
  obtain ⟨bindings, -⟩ := Compilation.generated_of_generate generated
  have bindings₁ : c₁.bindings = c.bindings := by rw [Compilation.check_keeps checked]
  have declared := Program.declared_of_resolve passed.written resolved
  rw [← bindings] at passed
  rw [← bindings₁, ← bindings] at declared
  exact ⟨p, c₂, parsed, compilation, passed.written, declared, passed.typed⟩

/-- Types that meet in a well-typed program match, and what a value goes to, if it is not compared,
has a declared type. -/
theorem Program.Meets.matches_and_definite {p : Program} {bound : Site → Option Decl}
    (written : p.Written) (declared : ∀ site d, bound site = some d → d.Written)
    (typed : p.WellTyped bound) {m : Meeting} {s t : ValueType} (h : p.Meets bound m s t) :
    s.Matches t ∧ (m = .comparison ∨ s.Definite) := by
  rcases h with ⟨n, hn, meets⟩ | ⟨⟨site, method⟩, hm, k, stmt, hk, meets⟩
  · obtain ⟨u, own⟩ := Program.typed_exprNodes typed n hn
    obtain ⟨hasType, -⟩ :=
      n.2.hasType_of_type? declared (Program.written_exprNodes written n hn) own
    exact ⟨hasType.matches_of_meets meets, meets.definite declared⟩
  · have derivable := (Program.derivable_iff written declared).mpr typed _ hm k stmt hk
    obtain ⟨j, c, hj, hc⟩ := Program.mem_sitedMethods.mp hm
    have shape : method.Written :=
      (written c (List.mem_of_getElem? hj)).methods method (ClassDecl.mem_of_mem_sitedMethods hc)
    have types := shape.body.forall_mem stmt (List.mem_of_getElem? hk)
    exact ⟨derivable.matches_of_meets meets, meets.definite declared shape.result types⟩

/-- A class that is `String` or not declared goes with `null` and with what was already reported,
and with nothing else. In an accepted program a place for a `String` gets `null`, and a `String`
goes to no place, but is compared with `null`. -/
theorem string_meets_null {text : List Char} {failFast : Bool} {r : CompileResult}
    (compiled : compile text failFast = .ok r) (success : r.status = .success) :
    (∀ name ref t, ValueType.isUnsupportedClass ref →
      ((ValueType.cls name ref).compatible t ↔ t = .error ∨ t = .base .null) ∧
      (t.compatible (.cls name ref) ↔ t = .error ∨ t = .base .null)) ∧
    ∃ p c, Program.ofText? text = .ok p ∧ r.compilation = some c ∧
      ∀ m s t, p.Meets c.bindings.get? m s t → ∀ name,
        (s = .cls name (some Predefined.string) → t = .base .null) ∧
        (t = .cls name (some Predefined.string) → m = .comparison ∧ s = .base .null) := by
  refine ⟨fun name ref t unsupported => ?_, ?_⟩
  · have goes : (ValueType.cls name ref).compatible t ↔ t = .error ∨ t = .base .null :=
      ValueType.compatible_unsupported_iff unsupported t
    exact ⟨goes, ValueType.compatible_comm t _ ▸ goes⟩
  · obtain ⟨p, c, parsed, compilation, written, declared, typed⟩ :=
      derivable_of_compile compiled success
    refine ⟨p, c, parsed, compilation, fun m s t meets name => ?_⟩
    obtain ⟨fit, definite⟩ := meets.matches_and_definite written declared typed
    constructor
    · rintro rfl
      exact ValueType.eq_null_of_matches fit rfl
    · rintro rfl
      obtain rfl := ValueType.eq_null_of_matches' fit rfl
      rcases definite with comparison | definite
      · exact ⟨comparison, rfl⟩
      · exact absurd rfl definite.2

/-- A variable of `String` is initialized, compared and assigned. -/
def stringVariableText : List Char :=
  ("class A \x7b public static void main(String[] a) " ++
    "\x7b String s = null; if (s == null) s = null; \x7d \x7d").toList

/-- Whether there is one method and it begins with a variable of `String` that is `null`. -/
def beginsWithString (bound : Site → Option Decl) : List (Site × MethodDecl) → Bool
  | [(site, ⟨_, .declare var (.null _) _ :: _⟩)] =>
    var.type.view bound (site.body 0).var.type = .ofClass Predefined.string
  | _ => false

theorem stringVariableText_meets : ∃ r p c, compile stringVariableText false = .ok r ∧
    r.status = .success ∧ Program.ofText? stringVariableText = .ok p ∧ r.compilation = some c ∧
    p.Meets c.bindings.get? .initialization (.ofClass Predefined.string) (.base .null) := by
  obtain ⟨r, compiled, success, p, c, o, parsed, compilation, -, known⟩ :=
    exists_compiled_of_any stringVariableText
      (P := fun p c _ => beginsWithString c.bindings.get? p.sitedMethods) (by decide +kernel)
  refine ⟨r, p, c, compiled, success, parsed, compilation, .inr ?_⟩
  unfold beginsWithString at known
  split at known
  · rename_i site head var pos pos' rest sited
    rw [sited, ← of_decide_eq_true known]
    exact ⟨_, List.mem_singleton_self _, 0, _, rfl, .initialization .null⟩
  · cases known

theorem stringVariableText_null : ∃ r p c, compile stringVariableText false = .ok r ∧
    r.status = .success ∧ Program.ofText? stringVariableText = .ok p ∧ r.compilation = some c ∧
    p.Meets c.bindings.get? .initialization (.ofClass Predefined.string) (.base .null) ∧
    ∀ m s t, p.Meets c.bindings.get? m s t → ∀ name,
      (s = .cls name (some Predefined.string) → t = .base .null) ∧
      (t = .cls name (some Predefined.string) → m = .comparison ∧ s = .base .null) := by
  obtain ⟨r, p, c, compiled, success, parsed, compilation, meets⟩ := stringVariableText_meets
  obtain ⟨-, p', c', parsed', compilation', only⟩ := string_meets_null compiled success
  cases parsed.symm.trans parsed'
  cases compilation.symm.trans compilation'
  exact ⟨r, p, c, compiled, success, parsed, compilation, meets, only⟩

/-- `String` goes with `null`, and there are accepted programs in which they meet. -/
theorem not_string_meets_nothing :
    ¬ (∀ t, (ValueType.ofClass Predefined.string).compatible t → t = .error) ∧
    ¬ ∀ text failFast r p c, compile text failFast = .ok r → r.status = .success →
      Program.ofText? text = .ok p → r.compilation = some c → ∀ m t,
        ¬ p.Meets c.bindings.get? m (.ofClass Predefined.string) t := by
  constructor
  · intro nothing
    cases nothing (.base .null) rfl
  · intro nothing
    obtain ⟨r, p, c, compiled, success, parsed, compilation, meets⟩ := stringVariableText_meets
    exact nothing _ _ r p c compiled success parsed compilation _ _ meets

end JamCompiler

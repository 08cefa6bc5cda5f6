import JamCompiler.Proofs.Typing.Values

/-!
# Typing rules

The documented rules as derivations. Types go together by `Matches`, in which nothing is excused:
the type of what was already reported goes with no type. `HasType` gives expressions their types,
and `Derivable` says which statements the rules accept. They know nothing of how bodies are checked.

A program whose names are bound to declarations with written types is well typed exactly if its
bodies are derivable, and the type of an expression is the one that is derived for it.
-/

namespace JamCompiler

open Typing (Context valueType? targetType? callType? unaryType? binaryType? elementType? ArgsFit)

namespace ValueType

/-- Whether the type of what was already reported occurs nowhere in a type. -/
def ErrorFree : ValueType → Prop
  | base b => b ≠ .error
  | cls .. => True
  | array element => element.ErrorFree

/-- Which types match: equal base types, the same class, arrays with matching elements, and `null`
with every class and array. No value of `String` matches another one. -/
inductive Matches : ValueType → ValueType → Prop
  | base {b : BaseType} (known : b ≠ .error) (usable : b ≠ .unsupported) :
    Matches (base b) (base b)
  | cls {name name' : String} {c : ClassRef} (usable : c ≠ Predefined.string) :
    Matches (cls name (some c)) (cls name' (some c))
  | array {s t : ValueType} (elements : Matches s t) : Matches (array s) (array t)
  | nullClass {name : String} {ref : Option ClassRef} : Matches (base .null) (cls name ref)
  | classNull {name : String} {ref : Option ClassRef} : Matches (cls name ref) (base .null)
  | nullArray {t : ValueType} : Matches (base .null) (array t)
  | arrayNull {t : ValueType} : Matches (array t) (base .null)

theorem Matches.compatible {s t : ValueType} (h : Matches s t) : s.compatible t := by
  induction h with
  | @base b known usable => cases b <;> first | rfl | contradiction
  | cls usable => simp [ValueType.compatible, isUnsupportedClass, usable]
  | array _ ih => simpa [ValueType.compatible] using ih
  | nullClass | classNull | nullArray | arrayNull => simp [ValueType.compatible]

theorem matches_of_compatible {s t : ValueType} (hs : s.ErrorFree) (ht : t.ErrorFree)
    (h : s.compatible t) : Matches s t := by
  induction s generalizing t with
  | base b =>
    cases t with
    | base b' =>
      have unsupported : b ≠ .unsupported := by
        rintro rfl
        cases b' <;> simp [compatible] at h
        exact ht rfl
      have same : b = b' := by
        cases b <;> cases b' <;> simp [compatible] at h <;>
          first | rfl | exact absurd rfl hs | exact absurd rfl ht
      subst same
      exact .base hs unsupported
    | cls =>
      cases b <;> simp [compatible] at h
      · exact .nullClass
      · exact absurd rfl hs
    | array =>
      cases b <;> simp [compatible] at h
      · exact .nullArray
      · exact absurd rfl hs
  | cls name ref =>
    cases t with
    | base b' =>
      cases b' <;> simp [compatible] at h
      · exact .classNull
      · exact absurd rfl ht
    | cls name' ref' =>
      obtain ⟨⟨usable, -⟩, rfl⟩ : (isUnsupportedClass ref = false ∧ _) ∧ ref = ref' := by
        simpa [compatible] using h
      cases ref with
      | none => cases usable
      | some c => exact .cls fun same => by simp [isUnsupportedClass, same] at usable
    | array => simp [compatible] at h
  | array element ih =>
    cases t with
    | base b' =>
      cases b' <;> simp [compatible] at h
      · exact .arrayNull
      · exact absurd rfl ht
    | cls => simp [compatible] at h
    | array element' => exact .array (ih hs ht (by simpa [compatible] using h))

theorem matches_iff {s t : ValueType} (hs : s.ErrorFree) (ht : t.ErrorFree) :
    Matches s t ↔ s.compatible t :=
  ⟨Matches.compatible, matches_of_compatible hs ht⟩

theorem isBase_iff {t : ValueType} (h : t.ErrorFree) (b : BaseType) : t.isBase b ↔ t = base b := by
  have known : t ≠ error := fun same => by rw [same] at h; exact h rfl
  simp [isBase, known]

theorem Proper.errorFree {t : ValueType} (h : t.Proper) : t.ErrorFree := by
  induction t with
  | base b => cases b <;> first | exact h.elim | exact nofun
  | cls => trivial
  | array element ih => exact ih h

end ValueType

namespace Decl

/-- What has a value: fields, parameters and local variables. -/
def IsVariable : Decl → Prop
  | field .. | param .. | var .. => True
  | cls .. | method .. => False

/-- Whether the types that a declaration is written with are types of the language. -/
def Written : Decl → Prop
  | cls _ => True
  | field _ d => d.type.Written
  | method _ head => head.result.WrittenResult ∧ ∀ p ∈ head.params, p.type.Written
  | param _ d => d.type.Written
  | var _ d => d.type.Written

end Decl

theorem TypeExpr.Written.viewAt_errorFree {type : TypeExpr} (h : type.Written)
    (bound : Site → Option Decl) (home : Home) : (type.viewAt bound home).ErrorFree :=
  (h.viewAt_declarable bound home).proper.errorFree

theorem TypeExpr.WrittenResult.viewAt_errorFree {type : TypeExpr} (h : type.WrittenResult)
    (bound : Site → Option Decl) (home : Home) : (type.viewAt bound home).ErrorFree := by
  rcases h.viewAt_cases bound home with declarable | isVoid
  · exact declarable.proper.errorFree
  · rw [isVoid]
    exact nofun

theorem Decl.Written.type_errorFree {d : Decl} (h : d.Written) (bound : Site → Option Decl) :
    (d.type bound).ErrorFree := by
  cases d with
  | cls => trivial
  | field home f => exact TypeExpr.Written.viewAt_errorFree h bound home
  | method home head => exact h.1.viewAt_errorFree bound home
  | param site p | var site v => exact TypeExpr.Written.viewAt_errorFree h bound (.user site)

section Rules

variable (bound : Site → Option Decl)

/-- What a reference stands for as a value. `System.out` is none. -/
inductive Reference.Denotes (site : Site) : Reference → ValueType → Prop
  | this {d : Decl} {pos : Nat} (known : bound site = some d) :
    Denotes site (.this pos) (d.type bound)
  | stored {r : Reference} {d : Decl} (named : ∀ pos, r ≠ .this pos) (known : bound site = some d)
      (isVariable : d.IsVariable) (usable : d ≠ Predefined.out) : Denotes site r (d.type bound)

/-- What a reference stands for as the target of an assignment. The length of an array is
read-only. -/
inductive Reference.Holds (site : Site) : Reference → ValueType → Prop
  | stored {r : Reference} {d : Decl} (named : ∀ pos, r ≠ .this pos) (known : bound site = some d)
      (isVariable : d.IsVariable) (usable : d ≠ Predefined.out) (writable : d ≠ Predefined.length) :
    Holds site r (d.type bound)

def BinaryOp.arithmetic : List BinaryOp := [.add, .sub, .mul, .div]

def BinaryOp.relational : List BinaryOp := [.lt, .le, .gt, .ge]

def BinaryOp.equality : List BinaryOp := [.eq, .ne]

def BinaryOp.logical : List BinaryOp := [.and, .or]

/-- Which types expressions have. -/
inductive Expr.HasType : Site → Expr → ValueType → Prop
  | int {site : Site} {value : Int} {pos : Nat} : HasType site (.int value pos) (.base .int)
  | bool {site : Site} {value : Bool} {pos : Nat} : HasType site (.bool value pos) (.base .boolean)
  | null {site : Site} {pos : Nat} : HasType site (.null pos) (.base .null)
  | neg {site : Site} {e : Expr} {pos : Nat} (operand : HasType site.operand e (.base .int)) :
    HasType site (.unary .neg e pos) (.base .int)
  | not {site : Site} {e : Expr} {pos : Nat} (operand : HasType site.operand e (.base .boolean)) :
    HasType site (.unary .not e pos) (.base .boolean)
  | arithmetic {site : Site} {op : BinaryOp} {a b : Expr} {pos : Nat}
      (known : op ∈ BinaryOp.arithmetic)
      (left : HasType site.left a (.base .int)) (right : HasType site.right b (.base .int)) :
    HasType site (.binary op a b pos) (.base .int)
  | relational {site : Site} {op : BinaryOp} {a b : Expr} {pos : Nat}
      (known : op ∈ BinaryOp.relational)
      (left : HasType site.left a (.base .int)) (right : HasType site.right b (.base .int)) :
    HasType site (.binary op a b pos) (.base .boolean)
  | equality {site : Site} {op : BinaryOp} {a b : Expr} {s t : ValueType} {pos : Nat}
      (known : op ∈ BinaryOp.equality) (left : HasType site.left a s)
      (right : HasType site.right b t)
      (same : s.Matches t) : HasType site (.binary op a b pos) (.base .boolean)
  | logical {site : Site} {op : BinaryOp} {a b : Expr} {pos : Nat} (known : op ∈ BinaryOp.logical)
      (left : HasType site.left a (.base .boolean))
      (right : HasType site.right b (.base .boolean)) :
    HasType site (.binary op a b pos) (.base .boolean)
  | ref {site : Site} {r : Reference} {t : ValueType} {pos : Nat}
      (value : r.Denotes bound site.target t) :
    HasType site (.ref r pos) t
  | index {site : Site} {r : Reference} {i : Expr} {element : ValueType} {pos : Nat}
      (base : r.Denotes bound site.target (.array element))
      (index : HasType site.index i (.base .int)) :
    HasType site (.index r i pos) element
  | call {site : Site} {r : Reference} {args : List Expr} {home : Home} {head : MethodHead}
      {types : List ValueType} {pos : Nat} (method : bound site.target = some (.method home head))
      (given : types.length = args.length)
      (typed : ∀ k e t, args[k]? = some e → types[k]? = some t → HasType (site.arg k) e t)
      (fit : List.Forall₂ (fun t p => p.2.Matches t) types (head.paramTypes bound home)) :
    HasType site (.call r args pos) (head.result.viewAt bound home)
  | newObject {site : Site} {type : TypeExpr} {pos : Nat} :
    HasType site (.newObject type pos) (type.view bound site.type)
  | newArray {site : Site} {element : TypeExpr} {size : Expr} {pos : Nat}
      (size' : HasType site.size size (.base .int)) :
    HasType site (.newArray element size pos) (.array (element.view bound site.type))

end Rules

/-- Which statements of a method the rules accept. The documented rule for returning a value asks
only that its type matches the result type; `ofVoid` says whether that goes for methods
without a result too. -/
inductive Stmt.Derivable (ctx : Context) (ofVoid : Bool) : Site → Stmt → Prop
  | block {site : Site} {stmts : List Stmt} {pos : Nat}
      (all : ∀ k s, stmts[k]? = some s → Derivable ctx ofVoid (site.stmt k) s) :
    Derivable ctx ofVoid site (.block stmts pos)
  | declare {site : Site} {var : VarDecl} {init : Expr} {t : ValueType} {pos : Nat}
      (typed : init.HasType ctx.bound site.init t)
      (same : (var.type.view ctx.bound site.var.type).Matches t) :
    Derivable ctx ofVoid site (.declare var init pos)
  | assign {site : Site} {r : Reference} {value : Expr} {s t : ValueType} {pos : Nat}
      (target : r.Holds ctx.bound site.target s) (typed : value.HasType ctx.bound site.value t)
      (same : s.Matches t) : Derivable ctx ofVoid site (.assign r value pos)
  | assignIndex {site : Site} {r : Reference} {index value : Expr} {s t : ValueType} {pos : Nat}
      (target : r.Holds ctx.bound site.target (.array s))
      (index' : index.HasType ctx.bound site.index (.base .int))
      (typed : value.HasType ctx.bound site.value t) (same : s.Matches t) :
    Derivable ctx ofVoid site (.assignIndex r index value pos)
  | call {site : Site} {r : Reference} {args : List Expr} {t : ValueType} {pos : Nat}
      (typed : (Expr.call r args pos).HasType ctx.bound site t) :
    Derivable ctx ofVoid site (.call r args pos)
  | ret {site : Site} {pos : Nat} (returns : ctx.result = .base .void) :
    Derivable ctx ofVoid site (.ret none pos)
  | retValue {site : Site} {value : Expr} {t : ValueType} {pos : Nat}
      (typed : value.HasType ctx.bound site.value t) (same : ctx.result.Matches t)
      (returns : ofVoid = true ∨ ctx.result ≠ .base .void) :
    Derivable ctx ofVoid site (.ret (some value) pos)
  | ifThen {site : Site} {cond : Expr} {body : Stmt} {pos : Nat}
      (cond' : cond.HasType ctx.bound site.cond (.base .boolean))
      (body' : Derivable ctx ofVoid site.thenBranch body) :
    Derivable ctx ofVoid site (.ifThen cond body pos)
  | ifElse {site : Site} {cond : Expr} {body other : Stmt} {pos : Nat}
      (cond' : cond.HasType ctx.bound site.cond (.base .boolean))
      (body' : Derivable ctx ofVoid site.thenBranch body)
      (other' : Derivable ctx ofVoid site.elseBranch other) :
    Derivable ctx ofVoid site (.ifElse cond body other pos)
  | loop {site : Site} {cond : Expr} {body : Stmt} {pos : Nat}
      (cond' : cond.HasType ctx.bound site.cond (.base .boolean))
      (body' : Derivable ctx ofVoid site.thenBranch body) :
    Derivable ctx ofVoid site (.loop cond body pos)

/-- Whether the rules accept the bodies of a program. -/
def Program.Derivable (bound : Site → Option Decl) (ofVoid : Bool) (p : Program) : Prop :=
  ∀ m ∈ p.sitedMethods, ∀ k (s : Stmt), m.2.body[k]? = some s →
    s.Derivable ⟨bound, .user m.1, m.2.head⟩ ofVoid (m.1.body k)

section Complete

variable {bound : Site → Option Decl} {site : Site}

theorem Reference.denotes_iff {r : Reference} {t : ValueType} :
    r.Denotes bound site t ↔ valueType? bound site r = some t := by
  constructor
  · intro denotes
    cases denotes with
    | this known => simp [valueType?, known]
    | @stored r d named known isVariable usable =>
      cases r with
      | this pos => exact absurd rfl (named pos)
      | ident | qualified | unknown =>
        cases d with
        | cls | method => exact isVariable.elim
        | field | param | var => simp [valueType?, known, usable]
  · intro value
    obtain ⟨d, known, found⟩ := Option.bind_eq_some_iff.mp value
    cases r with
    | this pos =>
      cases found
      exact .this known
    | ident | qualified | unknown =>
      cases d with
      | cls | method => cases found
      | field | param | var =>
        dsimp only at found
        split at found
        · cases found
        · cases found
          rename_i usable
          exact .stored (by rintro _ ⟨⟩) known trivial usable

theorem Reference.holds_iff {r : Reference} {t : ValueType} :
    r.Holds bound site t ↔ targetType? bound site r = some t := by
  constructor
  · intro holds
    cases holds with
    | @stored d named known isVariable usable writable =>
      cases r with
      | this pos => exact absurd rfl (named pos)
      | ident | qualified | unknown =>
        cases d with
        | cls | method => exact isVariable.elim
        | field | param | var => simp [targetType?, known, usable, writable]
  · intro value
    obtain ⟨d, known, found⟩ := Option.bind_eq_some_iff.mp value
    cases r with
    | this pos => cases found
    | ident | qualified | unknown =>
      cases d with
      | cls | method => cases found
      | field | param | var =>
        dsimp only at found
        split at found
        · cases found
        split at found
        · cases found
        · cases found
          rename_i writable usable
          exact .stored (by rintro _ ⟨⟩) known trivial usable writable

theorem argsFit_of_matches {types : List ValueType} {params : List (ParamDecl × ValueType)}
    (h : List.Forall₂ (fun t p => p.2.Matches t) types params) : ArgsFit types params := by
  induction h with
  | nil => trivial
  | cons same _ ih => exact ⟨same.compatible, ih⟩

/-- Types of arguments that are given one by one. -/
theorem Expr.argTypes?_eq_some {call : Site} {args : List Expr} {types : List ValueType} {k : Nat}
    (given : types.length = args.length)
    (typed : ∀ i (e : Expr) t, args[i]? = some e → types[i]? = some t →
      e.type? bound (call.arg (k + i)) = some t) :
    Expr.argTypes? bound call k args = some types := by
  induction args generalizing k types with
  | nil =>
    obtain rfl := List.length_eq_zero_iff.mp given
    rfl
  | cons e rest ih =>
    cases types with
    | nil => cases given
    | cons t types =>
      have first : e.type? bound (call.arg k) = some t := typed 0 e t rfl rfl
      have later := ih (k := k + 1) (Nat.succ.inj given) fun i e' t' he ht => by
        have here := typed (i + 1) e' t' he ht
        rwa [← Nat.add_assoc, Nat.add_right_comm] at here
      simp [argTypes?, first, later]

/-- What is derived for an expression is its type. -/
theorem Expr.HasType.type?_eq {e : Expr} {t : ValueType} (h : e.HasType bound site t) :
    e.type? bound site = some t := by
  induction h with
  | int | bool | null | newObject => rfl
  | neg _ ih | not _ ih => simp [type?, ih, unaryType?, ValueType.isBase]
  | arithmetic known _ _ ihl ihr | relational known _ _ ihl ihr | logical known _ _ ihl ihr =>
    simp only [type?, ihl, ihr, Option.bind_some]
    simp only [BinaryOp.arithmetic, BinaryOp.relational, BinaryOp.logical, List.mem_cons,
      List.not_mem_nil, or_false] at known
    rcases known with rfl | rfl | rfl | rfl <;> simp [binaryType?, ValueType.isBase]
  | equality known _ _ same ihl ihr =>
    simp only [type?, ihl, ihr, Option.bind_some]
    simp only [BinaryOp.equality, List.mem_cons, List.not_mem_nil, or_false] at known
    rcases known with rfl | rfl <;> simp [binaryType?, same.compatible]
  | ref value => exact Reference.denotes_iff.mp value
  | index base _ ih =>
    simp [type?, Reference.denotes_iff.mp base, ih, ValueType.isBase, elementType?]
  | @call site r args home head types pos method given _ fit ih =>
    have typed := argTypes?_eq_some (k := 0) given fun i e t he ht => by
      rw [Nat.zero_add]
      exact ih i e t he ht
    have count : types.length = head.params.length := by
      simpa [MethodHead.paramTypes] using fit.length_eq
    simp only [type?, method, typed, Option.bind_some, callType?, count, argsFit_of_matches fit,
      and_self, if_true]
    rfl
  | newArray _ ih => simp [type?, ih, ValueType.isBase]

/-- No expression has two types. -/
theorem Expr.HasType.unique {e : Expr} {s t : ValueType} (h : e.HasType bound site s)
    (h' : e.HasType bound site t) : s = t :=
  Option.some.inj (h.type?_eq.symm.trans h'.type?_eq)

end Complete

section Sound

variable {bound : Site → Option Decl} {site : Site}
variable (declared : ∀ site d, bound site = some d → d.Written)

include declared

theorem Reference.Denotes.errorFree {r : Reference} {t : ValueType} (h : r.Denotes bound site t) :
    t.ErrorFree := by
  cases h with
  | this known => exact (declared _ _ known).type_errorFree bound
  | stored _ known => exact (declared _ _ known).type_errorFree bound

theorem Reference.Holds.errorFree {r : Reference} {t : ValueType} (h : r.Holds bound site t) :
    t.ErrorFree := by
  cases h with
  | stored _ known => exact (declared _ _ known).type_errorFree bound

theorem MethodHead.paramTypes_errorFree {home : Home} {head : MethodHead}
    (known : bound site = some (.method home head)) :
    ∀ p ∈ head.paramTypes bound home, p.2.ErrorFree := by
  intro p hp
  obtain ⟨k, hk, rfl⟩ := List.mem_mapIdx.mp hp
  exact ((declared _ _ known).2 _ (List.getElem_mem hk)).viewAt_errorFree bound _

omit declared in
theorem matches_of_argsFit {types : List ValueType} {params : List (ParamDecl × ValueType)}
    (fit : ArgsFit types params) (count : types.length = params.length)
    (given : ∀ t ∈ types, t.ErrorFree) (expected : ∀ p ∈ params, p.2.ErrorFree) :
    List.Forall₂ (fun t p => p.2.Matches t) types params := by
  induction types generalizing params with
  | nil =>
    obtain rfl := List.length_eq_zero_iff.mp count.symm
    exact .nil
  | cons t types ih =>
    cases params with
    | nil => cases count
    | cons p params =>
      obtain ⟨here, later⟩ := List.forall_mem_cons.mp given
      obtain ⟨here', later'⟩ := List.forall_mem_cons.mp expected
      exact .cons (ValueType.matches_of_compatible here' here fit.1)
        (ih fit.2 (Nat.succ.inj count) later later')

omit declared in
/-- The operands of an operator with a type have types that it takes. -/
theorem Expr.hasType_unary {op : UnaryOp} {e : Expr} {pos : Nat} {given t : ValueType}
    (typed : unaryType? op given = some t) (operand : e.HasType bound site.operand given)
    (free : given.ErrorFree) : (Expr.unary op e pos).HasType bound site t ∧ t.ErrorFree := by
  cases op with
  | other => cases typed
  | neg | not =>
    simp only [unaryType?, ValueType.isBase_iff free] at typed
    split at typed
    · rename_i same
      subst same
      cases typed
      exact ⟨by constructor; exact operand, nofun⟩
    · cases typed

omit declared in
theorem Expr.hasType_binary {op : BinaryOp} {a b : Expr} {pos : Nat} {l r t : ValueType}
    (typed : binaryType? op l r = some t) (left : a.HasType bound site.left l)
    (right : b.HasType bound site.right r) (freeLeft : l.ErrorFree) (freeRight : r.ErrorFree) :
    (Expr.binary op a b pos).HasType bound site t ∧ t.ErrorFree := by
  simp only [binaryType?, Bool.and_eq_true, ValueType.isBase_iff freeLeft,
    ValueType.isBase_iff freeRight] at typed
  cases op with
  | other => cases typed
  | eq | ne =>
    dsimp only at typed
    split at typed
    · cases typed
      rename_i same
      have same := ValueType.matches_of_compatible freeLeft freeRight same
      exact ⟨.equality (by simp [BinaryOp.equality]) left right same, nofun⟩
    · cases typed
  | add | sub | mul | div =>
    dsimp only at typed
    split at typed
    · cases typed
      rename_i both
      obtain ⟨rfl, rfl⟩ := both
      exact ⟨.arithmetic (by simp [BinaryOp.arithmetic]) left right, nofun⟩
    · cases typed
  | lt | le | gt | ge =>
    dsimp only at typed
    split at typed
    · cases typed
      rename_i both
      obtain ⟨rfl, rfl⟩ := both
      exact ⟨.relational (by simp [BinaryOp.relational]) left right, nofun⟩
    · cases typed
  | and | or =>
    dsimp only at typed
    split at typed
    · cases typed
      rename_i both
      obtain ⟨rfl, rfl⟩ := both
      exact ⟨.logical (by simp [BinaryOp.logical]) left right, nofun⟩
    · cases typed

end Sound

variable {bound : Site → Option Decl}

mutual

/-- The type of a written expression is derived, and nothing is wrong in it. -/
theorem Expr.hasType_of_type? (declared : ∀ site d, bound site = some d → d.Written) {site : Site}
    {t : ValueType} (e : Expr) (written : e.Written) (typed : e.type? bound site = some t) :
    e.HasType bound site t ∧ t.ErrorFree := by
  match e with
  | .int .. =>
    cases typed
    exact ⟨.int, nofun⟩
  | .bool .. =>
    cases typed
    exact ⟨.bool, nofun⟩
  | .null _ =>
    cases typed
    exact ⟨.null, nofun⟩
  | .unary op operand pos =>
    obtain ⟨given, inner, outer⟩ := Option.bind_eq_some_iff.mp typed
    obtain ⟨operand', free⟩ := Expr.hasType_of_type? declared operand written.2 inner
    exact Expr.hasType_unary outer operand' free
  | .binary op left right pos =>
    obtain ⟨l, leftType, rest⟩ := Option.bind_eq_some_iff.mp typed
    obtain ⟨r, rightType, outer⟩ := Option.bind_eq_some_iff.mp rest
    obtain ⟨left', freeLeft⟩ := Expr.hasType_of_type? declared left written.2.1 leftType
    obtain ⟨right', freeRight⟩ := Expr.hasType_of_type? declared right written.2.2 rightType
    exact Expr.hasType_binary outer left' right' freeLeft freeRight
  | .ref r pos =>
    have denotes := Reference.denotes_iff.mpr typed
    exact ⟨.ref denotes, denotes.errorFree declared⟩
  | .index r i pos =>
    obtain ⟨base, baseType, rest⟩ := Option.bind_eq_some_iff.mp typed
    obtain ⟨given, indexType, outer⟩ := Option.bind_eq_some_iff.mp rest
    have denotes := Reference.denotes_iff.mpr baseType
    obtain ⟨index', free⟩ := Expr.hasType_of_type? declared i written.2 indexType
    have freeBase := denotes.errorFree declared
    simp only [ValueType.isBase_iff free] at outer
    split at outer
    · rename_i same
      subst same
      cases base with
      | array element =>
        cases outer
        exact ⟨.index denotes index', freeBase⟩
      | base b =>
        cases b <;> first | exact absurd rfl freeBase | cases outer
      | cls => cases outer
    · cases outer
  | .call r args pos =>
    obtain ⟨d, known, rest⟩ := Option.bind_eq_some_iff.mp typed
    obtain ⟨types, argTypes, outer⟩ := Option.bind_eq_some_iff.mp rest
    obtain ⟨count, each⟩ := Expr.hasTypes_of_argTypes? declared args written.2 argTypes
    cases d with
    | cls | field | param | var => cases outer
    | method home head =>
      simp only [callType?] at outer
      split at outer
      · rename_i fits
        cases outer
        have params : types.length = (head.paramTypes bound home).length := by
          simpa [MethodHead.paramTypes] using fits.1
        have free : ∀ t ∈ types, t.ErrorFree := by
          intro t ht
          obtain ⟨i, hi⟩ := List.mem_iff_getElem?.mp ht
          obtain ⟨bounded, -⟩ := List.getElem?_eq_some_iff.mp hi
          exact (each i _ t (List.getElem?_eq_getElem (count ▸ bounded)) hi).2
        refine ⟨.call known count (fun i e t he ht => ?_) (matches_of_argsFit fits.2 params free
          (MethodHead.paramTypes_errorFree declared known)),
          (declared _ _ known).type_errorFree bound⟩
        have here := (each i e t he ht).1
        rwa [Nat.zero_add] at here
      · cases outer
  | .newObject type pos =>
    cases typed
    exact ⟨.newObject, (written.view_proper bound site.type).errorFree⟩
  | .newArray element size pos =>
    obtain ⟨given, sizeType, outer⟩ := Option.bind_eq_some_iff.mp typed
    obtain ⟨size', free⟩ := Expr.hasType_of_type? declared size written.2 sizeType
    simp only [ValueType.isBase_iff free] at outer
    split at outer
    · rename_i same
      subst same
      cases outer
      exact ⟨.newArray size', (written.1.view_proper bound site.type).errorFree⟩
    · cases outer
  | .unknown .. => exact written.elim

theorem Expr.hasTypes_of_argTypes? (declared : ∀ site d, bound site = some d → d.Written)
    {call : Site} {k : Nat} {types : List ValueType} (es : List Expr) (written : Expr.AllWritten es)
    (typed : Expr.argTypes? bound call k es = some types) :
    types.length = es.length ∧ ∀ i (e : Expr) t, es[i]? = some e → types[i]? = some t →
      e.HasType bound (call.arg (k + i)) t ∧ t.ErrorFree := by
  match es with
  | [] =>
    cases typed
    exact ⟨rfl, nofun⟩
  | e :: rest =>
    obtain ⟨type, first, others⟩ := Option.bind_eq_some_iff.mp typed
    obtain ⟨types', later, rfl⟩ := Option.map_eq_some_iff.mp others
    obtain ⟨count, each⟩ := Expr.hasTypes_of_argTypes? declared rest written.2 later
    refine ⟨congrArg Nat.succ count, fun i e' t he ht => ?_⟩
    cases i with
    | zero =>
      cases he
      cases ht
      exact Expr.hasType_of_type? declared e written.1 first
    | succ i =>
      have here := each i e' t he ht
      rwa [Nat.add_right_comm, Nat.add_assoc] at here

end

namespace Stmt

variable {ctx : Context}

theorem conditional_iff (declared : ∀ site d, ctx.bound site = some d → d.Written) {site : Site}
    {cond : Expr} (written : cond.Written) :
    Conditional ctx site cond ↔ cond.HasType ctx.bound site (.base .boolean) := by
  constructor
  · rintro ⟨given, typed, isBoolean⟩
    obtain ⟨typed', free⟩ := cond.hasType_of_type? declared written typed
    rwa [(ValueType.isBase_iff free .boolean).mp isBoolean] at typed'
  · exact fun typed => ⟨_, typed.type?_eq, rfl⟩

theorem returnable_iff (declared : ∀ site d, ctx.bound site = some d → d.Written)
    (result : ctx.result.ErrorFree) {site : Site} {value : Expr} (written : value.Written)
    {pos : Nat} :
    (ret (some value) pos).Derivable ctx false site ↔ Returnable ctx site (some value) := by
  constructor
  · intro h
    cases h with
    | retValue typed same returns =>
      exact ⟨_, typed.type?_eq, returns.resolve_left nofun, same.compatible⟩
  · rintro ⟨given, typed, returns, fits⟩
    obtain ⟨typed', free⟩ := value.hasType_of_type? declared written typed
    exact .retValue typed' (ValueType.matches_of_compatible result free fits) (.inr returns)

mutual

theorem derivable_iff (declared : ∀ site d, ctx.bound site = some d → d.Written)
    (result : ctx.result.ErrorFree) {site : Site} (s : Stmt) (written : s.Written) :
    s.Derivable ctx false site ↔ s.WellTyped ctx site := by
  match s with
  | .block stmts pos =>
    have all : (∀ i (s : Stmt), stmts[i]? = some s → s.Derivable ctx false (site.stmt (0 + i))) ↔
        AllWellTyped ctx site.stmt 0 stmts := allDerivable_iff declared result stmts written
    simp only [Nat.zero_add] at all
    refine Iff.trans ⟨fun h => ?_, fun h => .block h⟩ all
    cases h with
    | block all => exact all
  | .declare var init pos =>
    constructor
    · intro h
      cases h with
      | declare typed same => exact ⟨_, typed.type?_eq, same.compatible⟩
    · rintro ⟨given, typed, fits⟩
      obtain ⟨typed', free⟩ := init.hasType_of_type? declared written.2 typed
      have type := (written.1.view_proper ctx.bound site.var.type).errorFree
      exact .declare typed' (ValueType.matches_of_compatible type free fits)
  | .assign target value pos =>
    constructor
    · intro h
      cases h with
      | assign target typed same =>
        exact ⟨_, Reference.holds_iff.mp target, _, typed.type?_eq, same.compatible⟩
    · rintro ⟨expected, target, given, typed, fits⟩
      have holds := Reference.holds_iff.mpr target
      obtain ⟨typed', free⟩ := value.hasType_of_type? declared written.2 typed
      exact .assign holds typed'
        (ValueType.matches_of_compatible (holds.errorFree declared) free fits)
  | .assignIndex target index value pos =>
    constructor
    · intro h
      cases h with
      | assignIndex target index typed same =>
        exact ⟨_, Reference.holds_iff.mp target, _, index.type?_eq, _, typed.type?_eq,
          rfl, same.compatible⟩
    · rintro ⟨type, target, i, index', given, typed, isInt, fits⟩
      have holds := Reference.holds_iff.mpr target
      have freeType := holds.errorFree declared
      obtain ⟨index', freeIndex⟩ := index.hasType_of_type? declared written.2.1 index'
      obtain ⟨typed', free⟩ := value.hasType_of_type? declared written.2.2 typed
      rw [(ValueType.isBase_iff freeIndex .int).mp isInt] at index'
      cases type with
      | array element =>
        exact .assignIndex holds index' typed' (ValueType.matches_of_compatible freeType free fits)
      | base b => cases b <;> first | exact absurd rfl freeType | exact fits.elim
      | cls => exact fits.elim
  | .call r args pos =>
    constructor
    · intro h
      cases h with
      | call typed =>
        obtain ⟨d, known, rest⟩ := Option.bind_eq_some_iff.mp typed.type?_eq
        obtain ⟨types, argTypes, outer⟩ := Option.bind_eq_some_iff.mp rest
        exact ⟨d, known, types, argTypes, Option.isSome_of_mem outer⟩
    · rintro ⟨d, known, types, argTypes, isSome⟩
      obtain ⟨t, outer⟩ := Option.isSome_iff_exists.mp isSome
      have typed : (Expr.call r args pos).type? ctx.bound site = some t := by
        simp [Expr.type?, known, argTypes, outer]
      exact .call ((Expr.call r args pos).hasType_of_type? declared written typed).1
  | .ret none pos =>
    constructor
    · intro h
      cases h with
      | ret returns => exact returns
    · exact .ret
  | .ret (some value) pos => exact returnable_iff declared result written
  | .ifThen cond body pos =>
    refine Iff.trans ⟨fun h => ?_, fun h => .ifThen h.1 h.2⟩
      (Iff.and (conditional_iff declared written.1).symm
        (derivable_iff declared result body written.2))
    cases h with
    | ifThen cond body => exact ⟨cond, body⟩
  | .ifElse cond body other pos =>
    refine Iff.trans ⟨fun h => ?_, fun h => .ifElse h.1 h.2.1 h.2.2⟩
      (Iff.and (conditional_iff declared written.1).symm
        (Iff.and (derivable_iff declared result body written.2.1)
        (derivable_iff declared result other written.2.2)))
    cases h with
    | ifElse cond body other => exact ⟨cond, body, other⟩
  | .loop cond body pos =>
    refine Iff.trans ⟨fun h => ?_, fun h => .loop h.1 h.2⟩
      (Iff.and (conditional_iff declared written.1).symm
        (derivable_iff declared result body written.2))
    cases h with
    | loop cond body => exact ⟨cond, body⟩
  | .unknown .. => exact written.elim

theorem allDerivable_iff (declared : ∀ site d, ctx.bound site = some d → d.Written)
    (result : ctx.result.ErrorFree) {sites : Nat → Site} {k : Nat} (ss : List Stmt)
    (written : AllWritten ss) :
    (∀ i (s : Stmt), ss[i]? = some s → s.Derivable ctx false (sites (k + i))) ↔
      AllWellTyped ctx sites k ss := by
  match ss with
  | [] => exact ⟨fun _ => trivial, fun _ => nofun⟩
  | s :: rest =>
    have first : s.Derivable ctx false (sites k) ↔ s.WellTyped ctx (sites k) :=
      derivable_iff declared result s written.1
    have later : (∀ i (s : Stmt), rest[i]? = some s → s.Derivable ctx false (sites (k + 1 + i))) ↔
        AllWellTyped ctx sites (k + 1) rest := allDerivable_iff declared result rest written.2
    constructor
    · intro h
      refine ⟨first.mp (h 0 s rfl), later.mp fun i s' hs => ?_⟩
      have here := h (i + 1) s' hs
      rwa [← Nat.add_assoc, Nat.add_right_comm] at here
    · intro h i s' hs
      cases i with
      | zero =>
        cases hs
        exact first.mpr h.1
      | succ i =>
        have here := later.mpr h.2 i s' hs
        rwa [Nat.add_right_comm, Nat.add_assoc] at here

end

/-- What the rules accept they accept when values of methods without a result may be returned
too. -/
theorem Derivable.loosen {site : Site} {s : Stmt} (h : s.Derivable ctx false site) :
    s.Derivable ctx true site := by
  induction h with
  | block _ ih => exact .block ih
  | declare typed same => exact .declare typed same
  | assign target typed same => exact .assign target typed same
  | assignIndex target index typed same => exact .assignIndex target index typed same
  | call typed => exact .call typed
  | ret returns => exact .ret returns
  | retValue typed same _ => exact .retValue typed same (.inl rfl)
  | ifThen cond _ ih => exact .ifThen cond ih
  | ifElse cond _ _ ih ih' => exact .ifElse cond ih ih'
  | loop cond _ ih => exact .loop cond ih

end Stmt

theorem Program.Derivable.loosen {p : Program} (h : p.Derivable bound false) :
    p.Derivable bound true :=
  fun m hm k s hs => (h m hm k s hs).loosen

/-- A written program is well typed exactly if its bodies are derivable. -/
theorem Program.derivable_iff {p : Program} (written : p.Written)
    (declared : ∀ site d, bound site = some d → d.Written) :
    p.Derivable bound false ↔ p.WellTyped bound := by
  refine forall₂_congr fun m hm => ?_
  obtain ⟨k, c, hk, hs⟩ := mem_sitedMethods.mp hm
  have shape : m.2.Written :=
    (written c (List.mem_of_getElem? hk)).methods m.2 (ClassDecl.mem_of_mem_sitedMethods hs)
  let ctx : Context := ⟨bound, .user m.1, m.2.head⟩
  have result : ctx.result.ErrorFree := shape.result.viewAt_errorFree bound _
  have all : (∀ i (s : Stmt), m.2.body[i]? = some s → s.Derivable ctx false (m.1.body (0 + i))) ↔
      Stmt.AllWellTyped ctx m.1.body 0 m.2.body :=
    Stmt.allDerivable_iff declared result m.2.body shape.body
  simp only [Nat.zero_add] at all
  exact all

end JamCompiler

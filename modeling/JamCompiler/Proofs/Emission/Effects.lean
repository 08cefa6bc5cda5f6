import JamCompiler.Proofs.Emission.Building
import JamCompiler.Proofs.Emission.Depth
import JamCompiler.Proofs.Typing.Values

/-!
# Effects of code

The code of an expression leaves one word if the expression has a value, and the code of a statement
leaves the variables that it declares. Checking the types gives every operator, index, argument and
condition a value, but it lets two calls without results be compared with each other;
`ComparesValues` excludes just this.
-/

namespace JamCompiler

open Machine Emission Typing

def BinaryOp.IsEquality : BinaryOp → Prop
  | eq | ne => True
  | _ => False

instance BinaryOp.IsEquality.decidable : DecidablePred BinaryOp.IsEquality
  | eq | ne => isTrue trivial
  | or | and | lt | le | gt | ge | add | sub | mul | div | other _ => isFalse id

mutual

/-- Whether all operands of `==` and `!=` in an expression have values. -/
def Expr.ComparesValues (bound : Site → Option Decl) (site : Site) : Expr → Prop
  | .int .. | .bool .. | .null .. | .ref .. | .newObject .. | .unknown .. => True
  | .unary _ operand _ => operand.ComparesValues bound site.operand
  | .binary op left right _ =>
    (op.IsEquality → left.type? bound site.left ≠ some (.base .void) ∧
      right.type? bound site.right ≠ some (.base .void)) ∧
    left.ComparesValues bound site.left ∧ right.ComparesValues bound site.right
  | .index _ i _ => i.ComparesValues bound site.index
  | .call _ args _ => Expr.AllCompareValues bound site 0 args
  | .newArray _ size _ => size.ComparesValues bound site.size

/-- The arguments of a call from the `k`th on. -/
def Expr.AllCompareValues (bound : Site → Option Decl) (call : Site) (k : Nat) : List Expr → Prop
  | [] => True
  | e :: rest => e.ComparesValues bound (call.arg k) ∧ Expr.AllCompareValues bound call (k + 1) rest

end

mutual

def Stmt.ComparesValues (bound : Site → Option Decl) (site : Site) : Stmt → Prop
  | .block stmts _ => Stmt.AllCompareValues bound site.stmt 0 stmts
  | .declare _ init _ => init.ComparesValues bound site.init
  | .assign _ value _ => value.ComparesValues bound site.value
  | .assignIndex _ index value _ =>
    index.ComparesValues bound site.index ∧ value.ComparesValues bound site.value
  | .call _ args _ => Expr.AllCompareValues bound site 0 args
  | .ret none _ | .unknown .. => True
  | .ret (some value) _ => value.ComparesValues bound site.value
  | .ifThen cond body _ | .loop cond body _ =>
    cond.ComparesValues bound site.cond ∧ body.ComparesValues bound site.thenBranch
  | .ifElse cond body other _ => cond.ComparesValues bound site.cond ∧
      body.ComparesValues bound site.thenBranch ∧ other.ComparesValues bound site.elseBranch

/-- The statements of a list from the `k`th on, whose sites are given. -/
def Stmt.AllCompareValues (bound : Site → Option Decl) (sites : Nat → Site) (k : Nat) :
    List Stmt → Prop
  | [] => True
  | s :: rest => s.ComparesValues bound (sites k) ∧ Stmt.AllCompareValues bound sites (k + 1) rest

end

mutual

def Expr.ComparesValues.decidable (bound : Site → Option Decl) (site : Site) :
    (e : Expr) → Decidable (e.ComparesValues bound site)
  | .int .. | .bool .. | .null .. | .ref .. | .newObject .. | .unknown .. => isTrue trivial
  | .unary _ operand _ => Expr.ComparesValues.decidable bound site.operand operand
  | .binary op left right _ =>
    have := Expr.ComparesValues.decidable bound site.left left
    have := Expr.ComparesValues.decidable bound site.right right
    inferInstanceAs (Decidable ((op.IsEquality → left.type? bound site.left ≠ some (.base .void) ∧
      right.type? bound site.right ≠ some (.base .void)) ∧
        left.ComparesValues bound site.left ∧ right.ComparesValues bound site.right))
  | .index _ i _ => Expr.ComparesValues.decidable bound site.index i
  | .call _ args _ => Expr.AllCompareValues.decidable bound site 0 args
  | .newArray _ size _ => Expr.ComparesValues.decidable bound site.size size

def Expr.AllCompareValues.decidable (bound : Site → Option Decl) (call : Site) (k : Nat) :
    (args : List Expr) → Decidable (Expr.AllCompareValues bound call k args)
  | [] => isTrue trivial
  | e :: rest =>
    have := Expr.ComparesValues.decidable bound (call.arg k) e
    have := Expr.AllCompareValues.decidable bound call (k + 1) rest
    inferInstanceAs (Decidable (e.ComparesValues bound (call.arg k) ∧
      Expr.AllCompareValues bound call (k + 1) rest))

end

mutual

def Stmt.ComparesValues.decidable (bound : Site → Option Decl) (site : Site) :
    (s : Stmt) → Decidable (s.ComparesValues bound site)
  | .block stmts _ => Stmt.AllCompareValues.decidable bound site.stmt 0 stmts
  | .declare _ init _ => Expr.ComparesValues.decidable bound site.init init
  | .assign _ value _ | .ret (some value) _ => Expr.ComparesValues.decidable bound site.value value
  | .assignIndex _ index value _ =>
    have := Expr.ComparesValues.decidable bound site.index index
    have := Expr.ComparesValues.decidable bound site.value value
    inferInstanceAs (Decidable (index.ComparesValues bound site.index ∧
      value.ComparesValues bound site.value))
  | .call _ args _ => Expr.AllCompareValues.decidable bound site 0 args
  | .ret none _ | .unknown .. => isTrue trivial
  | .ifThen cond body _ | .loop cond body _ =>
    have := Expr.ComparesValues.decidable bound site.cond cond
    have := Stmt.ComparesValues.decidable bound site.thenBranch body
    inferInstanceAs (Decidable (cond.ComparesValues bound site.cond ∧
      body.ComparesValues bound site.thenBranch))
  | .ifElse cond body other _ =>
    have := Expr.ComparesValues.decidable bound site.cond cond
    have := Stmt.ComparesValues.decidable bound site.thenBranch body
    have := Stmt.ComparesValues.decidable bound site.elseBranch other
    inferInstanceAs (Decidable (cond.ComparesValues bound site.cond ∧
      body.ComparesValues bound site.thenBranch ∧ other.ComparesValues bound site.elseBranch))

def Stmt.AllCompareValues.decidable (bound : Site → Option Decl) (sites : Nat → Site) (k : Nat) :
    (stmts : List Stmt) → Decidable (Stmt.AllCompareValues bound sites k stmts)
  | [] => isTrue trivial
  | s :: rest =>
    have := Stmt.ComparesValues.decidable bound (sites k) s
    have := Stmt.AllCompareValues.decidable bound sites (k + 1) rest
    inferInstanceAs (Decidable (s.ComparesValues bound (sites k) ∧
      Stmt.AllCompareValues bound sites (k + 1) rest))

end

theorem Stmt.allCompareValues_append_ret {bound : Site → Option Decl} {sites : Nat → Site} {k : Nat}
    {stmts : List Stmt} {pos : Nat} (h : Stmt.AllCompareValues bound sites k stmts) :
    Stmt.AllCompareValues bound sites k (stmts ++ [.ret none pos]) := by
  induction stmts generalizing k with
  | nil => exact ⟨trivial, trivial⟩
  | cons s rest ih => exact ⟨h.1, ih h.2⟩

/-- Whether all operands of `==` and `!=` in the body of a method have values. -/
def MethodDecl.ComparesValues (bound : Site → Option Decl) (site : Site) (m : MethodDecl) : Prop :=
  Stmt.AllCompareValues bound site.body 0 m.body

instance MethodDecl.ComparesValues.decidable (bound : Site → Option Decl) (site : Site)
    (m : MethodDecl) : Decidable (m.ComparesValues bound site) :=
  Stmt.AllCompareValues.decidable bound site.body 0 m.body

namespace Emission

namespace Tree

/-- Whether a tree turns so many words on top of the stack into so many, and takes no others. -/
def Turns (pops pushes : Nat) (t : Tree) : Prop :=
  ∀ floor rest, floor ≤ rest → t.Takes floor (rest + pops) (rest + pushes)

variable {a b c : Nat} {first second t : Tree} {items items' : Code} {item : Item}

theorem Turns.above (k : Nat) (h : t.Turns a b) : t.Turns (k + a) (k + b) := by
  intro floor rest le
  rw [← Nat.add_assoc, ← Nat.add_assoc]
  exact h floor (rest + k) (by omega)

theorem Turns.seq (h : first.Turns a b) (h' : second.Turns b c) : (seq first second).Turns a c :=
  fun floor rest le => ⟨rest + b, h floor rest le, h' floor rest le⟩

theorem turns_nil : (straight []).Turns a a := fun _ _ _ => rfl

theorem turns_item (effect : item.effect? = some (a, b)) : (straight [item]).Turns a b :=
  fun floor rest le => ⟨a, b, effect, by omega, by simp only [RunsFrom]; omega⟩

theorem turns_prim {p : Primitive} (effect : p.effect? = some (a, b)) :
    (straight [prim p]).Turns a b := turns_item ((effect_prim p).trans effect)

theorem runsFrom_append {floor d d' : Nat} : RunsFrom floor d d' (items ++ items') ↔
    ∃ middle, RunsFrom floor d middle items ∧ RunsFrom floor middle d' items' := by
  induction items generalizing d with
  | nil =>
    refine ⟨fun h => ⟨d, rfl, h⟩, ?_⟩
    rintro ⟨_, rfl, h⟩
    exact h
  | cons item rest ih =>
    simp only [List.cons_append, RunsFrom, ih]
    constructor
    · rintro ⟨pops, pushes, effect, enough, middle, first, second⟩
      exact ⟨middle, ⟨pops, pushes, effect, enough, first⟩, second⟩
    · rintro ⟨middle, ⟨pops, pushes, effect, enough, first⟩, second⟩
      exact ⟨pops, pushes, effect, enough, middle, first, second⟩

theorem Turns.append (h : (straight items).Turns a b) (h' : (straight items').Turns b c) :
    (straight (items ++ items')).Turns a c :=
  fun floor rest le => runsFrom_append.mpr ⟨rest + b, h floor rest le, h' floor rest le⟩

theorem Turns.value {site : Site} {e : Expr} (h : t.Turns 0 1) :
    (marked (.value site e) t).Turns 0 1 := fun floor rest le => ⟨rfl, h floor rest le⟩

theorem Turns.load (h : t.Turns 0 1) : (marked .load t).Turns 0 1 :=
  fun floor rest le => ⟨rfl, h floor rest le⟩

theorem Turns.shortCut {decides : Bool} {p : Primitive} (h : first.Turns 0 1)
    (h' : second.Turns 0 1) (effect : p.effect? = some (2, 1)) :
    (shortCut decides first second p).Turns 0 1 :=
  fun floor rest le =>
    ⟨le, h floor rest le, h' floor (rest + 1) (Nat.le_add_right_of_le le), effect, rfl⟩

end Tree

open JamCompiler.Emission.Tree

section Values

variable {env : Env}

/-- The code of a reference leaves one word. -/
theorem turns_emitRef (site : Site) (r : Reference) :
    Only (emitRef env site r) fun items => (straight items).Turns 0 1 := by
  induction r generalizing site with
  | this => exact .ok (turns_item rfl)
  | unknown => exact .error _
  | ident name pos =>
    refine (Only.any _).bind fun d _ => (Only.any _).bind fun l _ => ?_
    cases l with
    | static | frame | object => exact .ok (turns_item rfl)
    | code => exact .error _
  | qualified qualifier name pos ih =>
    refine (Only.any _).bind fun d _ => ?_
    split
    · exact (ih _).bind fun array one => .ok (one.append (turns_prim rfl))
    · refine (Only.any _).bind fun l _ => ?_
      cases l with
      | static | frame => exact .ok (turns_item rfl)
      | object k =>
        have offset : (straight [literal k]).Turns 0 1 := turns_item rfl
        exact (ih _).bind fun object one =>
          .ok (one.append ((offset.above 1).append (turns_prim rfl)))
      | code => exact .error _

theorem turns_emitNew (site : Site) (type : TypeExpr) (pos : Nat) :
    Only (emitNew env site type pos) fun items => (straight items).Turns 0 1 := by
  unfold emitNew
  dsimp only
  split
  · rename_i l _
    have number : (straight [literal l.number]).Turns 0 1 := turns_item rfl
    have size : (straight [literal l.size]).Turns 0 1 := turns_item rfl
    exact .ok (number.append ((size.above 1).append (turns_prim rfl)))
  · exact .error _

/-- The result of a method in words. -/
def resultWords (head : MethodHead) : Nat := if head.result.isVoid then 0 else 1

/-- A call takes its arguments and leaves its result. -/
theorem turns_invocationTree (target : Site) (r : Reference) (method : Home × MethodHead)
    (given : Nat) {args : Tree} (h : args.Turns 0 method.2.params.length) :
    Only (invocationTree env target r method given args) fun t =>
      t.Turns 0 (resultWords method.2) := by
  unfold invocationTree
  dsimp only
  split
  · rename_i println
    have same := isPrintln_iff.mp println
    split
    · exact .error _
    · obtain ⟨home, head⟩ := method
      cases same
      exact .ok (h.seq (turns_prim rfl))
  · split
    · exact .ok (h.seq (turns_item rfl))
    · have call : (straight [.call true (.method method.1 method.2)]).Turns
        (method.2.params.length + 1) (resultWords method.2) := turns_item rfl
      cases r with
      | qualified qualifier =>
        exact (turns_emitRef _ qualifier).bind fun _ one =>
          .ok (h.seq ((one.load.above _).seq call))
      | this | ident | unknown =>
        have self : (straight [self]).Turns 0 1 := turns_item rfl
        exact .ok (h.seq ((self.load.above _).seq call))

end Values

end Emission

/-- Whether the types at a use are those of values, where it must be one. -/
def Use.Firm (bound : Site → Option Decl) : Use → Prop
  | type site t => (t.view bound site).Proper
  | ref _ _ site r => ∀ type, valueType? bound site r = some type → type.Proper
  | callee _ _ site _ => ∀ home head, bound site = some (.method home head) →
      ∀ q ∈ head.paramTypes bound home, q.2.Proper
  | branch body => body.isDeclaration = false
  | declare .. | foreign => True

namespace Emission

open JamCompiler.Emission.Tree

theorem ne_void_of_unaryType {op : UnaryOp} {given type : ValueType}
    (h : unaryType? op given = some type) : given ≠ .base .void := by
  cases op with
  | neg | not =>
    rw [unaryType?] at h
    split at h
    · rename_i base
      exact ValueType.ne_void_of_isBase base (by decide)
    · cases h
  | other text => cases h

/-- The operands of an operator have values, unless they are compared. -/
theorem ne_void_of_binaryType {op : BinaryOp} {left right type : ValueType}
    (h : binaryType? op left right = some type) (other : ¬ op.IsEquality) :
    left ≠ .base .void ∧ right ≠ .base .void := by
  have both {b : BaseType} (value : b ≠ .void) (h : (left.isBase b && right.isBase b) = true) :
      left ≠ .base .void ∧ right ≠ .base .void := by
    obtain ⟨first, second⟩ := Bool.and_eq_true_iff.mp h
    exact ⟨ValueType.ne_void_of_isBase first value, ValueType.ne_void_of_isBase second value⟩
  cases op with
  | other text => cases h
  | eq | ne => exact absurd trivial other
  | or | and | lt | le | gt | ge | add | sub | mul | div =>
    rw [binaryType?] at h
    split at h
    · rename_i bases
      exact both (by decide) bases
    · cases h

/-- Operators are primitives that turn two words into one. -/
theorem effect_binaryPrim {op : BinaryOp} {p : Primitive} (h : binaryPrim? op = some p) :
    p.effect? = some (2, 1) := by
  cases op with
  | other text => cases h
  | or | and | eq | ne | lt | le | gt | ge | add | sub | mul | div =>
    cases h
    rfl

theorem effect_unaryPrim {op : UnaryOp} {p : Primitive} (h : unaryPrim? op = some p) :
    p.effect? = some (1, 1) := by
  cases op with
  | other text => cases h
  | neg | not =>
    cases h
    rfl

section Expressions

variable {env : Env} {names : Resolving.Context} {locals : Scope}

/-- Whether arguments of some types can be passed to a method, whose parameters are for values. -/
structure Passes (bound : Site → Option Decl) (method : Home × MethodHead)
    (types : List ValueType) : Prop where
  proper : ∀ q ∈ method.2.paramTypes bound method.1, q.2.Proper
  fit : ArgsFit types (method.2.paramTypes bound method.1)
  enough : types.length ≤ (method.2.paramTypes bound method.1).length
  count : types.length = method.2.params.length

/-- A well-typed call passes its arguments and has the type of the result. -/
theorem passes_of_callType {site : Site} {r : Reference} {method : Home × MethodHead} {d : Decl}
    {types : List ValueType} {type : ValueType}
    (firm : (Use.callee names locals site r).Firm env.bound)
    (found : env.bound site = some (.method method.1 method.2)) (bound : env.bound site = some d)
    (typed : callType? env.bound d types = some type) :
    Passes env.bound method types ∧ type = method.2.result.viewAt env.bound method.1 := by
  cases found.symm.trans bound
  rw [callType?] at typed
  split at typed
  · rename_i fits
    cases typed
    refine ⟨⟨firm _ _ found, fits.2, ?_, fits.1⟩, rfl⟩
    rw [MethodHead.paramTypes, List.length_mapIdx, fits.1]
  · cases typed

mutual

/-- The code of an expression that has a value leaves one word. -/
theorem turns_tree (site : Site) (e : Expr) {type : ValueType}
    (firm : ∀ u ∈ e.uses names locals site, u.Firm env.bound)
    (typed : e.type? env.bound site = some type) (value : type ≠ .base .void)
    (compares : e.ComparesValues env.bound site) : Only (e.tree env site) (Turns 0 1) := by
  have marked {x : Emitted Tree} (h : Only x (Turns 0 1)) :
      Only (x.map (.marked (.value site e))) (Turns 0 1) := h.map fun _ one => one.value
  match e with
  | .int .. | .bool .. | .null .. => exact marked (.ok (turns_item rfl))
  | .unknown .. => cases typed
  | .unary op operand pos =>
    obtain ⟨given, inner, outer⟩ := Option.bind_eq_some_iff.mp typed
    refine marked ?_
    split
    · exact .error _
    · rename_i p prim
      refine (turns_tree site.operand operand firm inner (ne_void_of_unaryType outer) compares).bind
        fun _ one => .ok (one.seq ?_)
      exact turns_prim (effect_unaryPrim prim)
  | .binary op left right pos =>
    obtain ⟨l, first, typed⟩ := Option.bind_eq_some_iff.mp typed
    obtain ⟨r, second, typed⟩ := Option.bind_eq_some_iff.mp typed
    have ⟨inLeft, inRight⟩ := List.forall_mem_append.mp firm
    obtain ⟨equality, inLeft', inRight'⟩ := compares
    have values : l ≠ .base .void ∧ r ≠ .base .void := by
      by_cases h : op.IsEquality
      · obtain ⟨left, right⟩ := equality h
        exact ⟨fun void => left (void ▸ first), fun void => right (void ▸ second)⟩
      · exact ne_void_of_binaryType typed h
    refine marked ?_
    split
    · exact .error _
    · rename_i p prim
      have effect := effect_binaryPrim prim
      refine (turns_tree site.left left inLeft first values.1 inLeft').bind fun _ one =>
        (turns_tree site.right right inRight second values.2 inRight').bind fun _ one' => .ok ?_
      split
      · exact one.seq ((one'.above 1).seq (turns_prim effect))
      · exact one.shortCut one' effect
  | .ref r pos => exact marked ((turns_emitRef site.target r).bind fun _ one => .ok one)
  | .index r i pos =>
    obtain ⟨array, -, typed⟩ := Option.bind_eq_some_iff.mp typed
    obtain ⟨given, inner, typed⟩ := Option.bind_eq_some_iff.mp typed
    have ⟨_, inIndex⟩ := List.forall_mem_cons.mp firm
    split at typed
    · rename_i int
      exact marked ((turns_emitRef site.target r).bind fun _ one =>
        (turns_tree site.index i inIndex inner (ValueType.ne_void_of_isBase int (by decide))
          compares).bind fun _ one' => .ok (one.load.seq ((one'.above 1).seq (turns_prim rfl))))
    · cases typed
  | .call r args pos =>
    obtain ⟨d, bound, typed⟩ := Option.bind_eq_some_iff.mp typed
    obtain ⟨types, inner, typed⟩ := Option.bind_eq_some_iff.mp typed
    have ⟨here, inArgs⟩ := List.forall_mem_cons.mp firm
    refine marked ((only_callee site.target pos).bind fun method found => ?_)
    obtain ⟨passes, result⟩ := passes_of_callType here found bound typed
    have count := (length_argTypes inner).symm.trans passes.count
    rw [argsTaken_eq count]
    refine (turns_argTrees site 0 args inArgs inner passes.proper passes.fit passes.enough
      compares).bind fun given all => ?_
    rw [count] at all
    have one : resultWords method.2 = 1 :=
      if_neg fun void => value (result ▸ (TypeExpr.viewAt_eq_void _ _ _).mpr void)
    exact one ▸ turns_invocationTree site.target r method args.length all
  | .newObject type pos =>
    exact marked ((turns_emitNew site.type type pos).bind fun _ one => .ok one)
  | .newArray element size pos =>
    obtain ⟨given, inner, typed⟩ := Option.bind_eq_some_iff.mp typed
    have ⟨_, inSize⟩ := List.forall_mem_cons.mp firm
    split at typed
    · rename_i int
      exact marked ((turns_tree site.size size inSize inner
        (ValueType.ne_void_of_isBase int (by decide)) compares).bind fun _ one =>
          .ok (one.seq (turns_prim rfl)))
    · cases typed

/-- The code of arguments leaves a word for each. -/
theorem turns_argTrees (call : Site) (k : Nat) (args : List Expr) {types : List ValueType}
    {params : List (ParamDecl × ValueType)}
    (firm : ∀ u ∈ Expr.argUses names locals call k args, u.Firm env.bound)
    (typed : Expr.argTypes? env.bound call k args = some types)
    (proper : ∀ q ∈ params, q.2.Proper) (fit : ArgsFit types params)
    (enough : types.length ≤ params.length)
    (compares : Expr.AllCompareValues env.bound call k args) :
    Only (Expr.argTrees env call k args.length args) (Turns 0 args.length) := by
  match args with
  | [] => exact .ok turns_nil
  | e :: rest =>
    obtain ⟨given, first, typed⟩ := Option.bind_eq_some_iff.mp typed
    obtain ⟨later, others, rfl⟩ := Option.map_eq_some_iff.mp typed
    have ⟨here, inRest⟩ := List.forall_mem_append.mp firm
    cases params with
    | nil => cases enough
    | cons q params =>
      obtain ⟨prm, expected⟩ := q
      have ⟨proper', properRest⟩ := List.forall_mem_cons.mp proper
      refine (turns_tree (call.arg k) e here first (proper'.ne_void_of_compatible fit.1)
        compares.1).bind fun _ one =>
          (turns_argTrees call (k + 1) rest inRest others properRest fit.2
            (Nat.le_of_succ_le_succ enough)
            compares.2).bind fun _ all => .ok (one.seq ?_)
      rw [List.length_cons, Nat.add_comm]
      exact all.above 1

end

end Expressions

section Statements

variable {env : Env} {arity : Nat}

theorem turns_store (r : Register) (k : Int) :
    (straight [.instr { op := .store, r := r, d := k }]).Turns 1 0 := turns_item rfl

theorem turns_storeTree (site : Site) (r : Reference) {value : Emitted Tree}
    (h : Only value (Turns 0 1)) : Only (storeTree env site r value) (Turns 0 0) := by
  have direct (reg : Register) (k : Int) : Only (do
      return Tree.seq (← value) (.straight [.instr { op := .store, r := reg, d := k }]))
      (Turns 0 0) := h.bind fun _ one => .ok (one.seq (turns_store _ _))
  refine (Only.any _).bind fun d _ => (Only.any _).bind fun l _ => ?_
  cases l with
  | static | frame => exact direct _ _
  | code => exact .error _
  | object k =>
    cases r with
    | this | ident | unknown => exact direct _ _
    | qualified qualifier name pos =>
      have offset : (straight [literal k]).Turns 0 1 := turns_item rfl
      exact (turns_emitRef _ qualifier).bind fun object one => h.bind fun inner one' =>
        .ok (one.load.seq ((offset.above 1).seq ((one'.above 2).seq (turns_prim rfl))))

section Walk

variable {names : Resolving.Context} {locals : Scope}

theorem turns_elementStoreTree (site : Site) (target : Reference) {index value : Expr}
    (h : Only (index.tree env site.index) (Turns 0 1))
    (h' : Only (value.tree env site.value) (Turns 0 1)) :
    Only (elementStoreTree env site target index value) (Turns 0 0) :=
  (turns_emitRef _ target).bind fun _ one => h.bind fun _ one' => h'.bind fun _ one'' =>
    .ok (one.load.seq ((one'.above 1).seq ((one''.above 2).seq (turns_prim rfl))))

theorem turns_pop (k : Nat) : (straight [pop k]).Turns k 0 := turns_item rfl

theorem ne_void_of_storable {type given : ValueType} (h : type.Proper)
    (fits : Stmt.Storable type given) : given ≠ .base .void := by
  cases type with
  | array element =>
    have proper : element.Proper := h
    exact proper.ne_void_of_compatible fits
  | base b => cases b <;> first | exact h.elim | exact fits.elim
  | cls => exact fits.elim

/-- A call as a statement leaves nothing. -/
theorem turns_callTree (site : Site) (r : Reference) (args : List Expr) (pos : Nat) {d : Decl}
    {types : List ValueType}
    (firm : (Use.callee names locals site.target r).Firm env.bound)
    (inArgs : ∀ u ∈ Expr.argUses names locals site 0 args, u.Firm env.bound)
    (bound : env.bound site.target = some d)
    (typedArgs : Expr.argTypes? env.bound site 0 args = some types)
    (typed : (callType? env.bound d types).isSome)
    (compares : Expr.AllCompareValues env.bound site 0 args) :
    Only (callTree env site r args pos) (Turns 0 0) := by
  refine (only_callee site.target pos).bind fun method found => ?_
  obtain ⟨type, typed⟩ := Option.isSome_iff_exists.mp typed
  obtain ⟨passes, -⟩ := passes_of_callType firm found bound typed
  have count := (length_argTypes typedArgs).symm.trans passes.count
  rw [argsTaken_eq count]
  refine (turns_argTrees site 0 args inArgs typedArgs passes.proper passes.fit passes.enough
    compares).bind fun given all => ?_
  rw [count] at all
  refine (turns_invocationTree site.target r method args.length all).bind fun call result => .ok ?_
  rw [resultWords] at result
  split at result
  · rename_i void
    rw [if_pos void]
    exact result
  · rename_i value
    rw [if_neg value]
    exact result.seq (turns_pop 1)

/-- Whether code takes the stack from where the next local gets its slot to after so many locals,
with nothing from below the first. -/
def Tree.Declares (slot : Nat) (t : Tree × Nat) : Prop :=
  ∀ floor, floor ≤ slot → t.1.Takes floor slot (slot + t.2)

theorem Tree.Turns.declares {t : Tree} {slot n : Nat} (h : t.Turns 0 n) : Declares slot (t, n) :=
  fun floor le => h floor slot le

theorem Tree.Declares.stmt {t : Tree × Nat} {slot : Nat} (h : Declares slot t) :
    Declares slot (.marked (.stmt slot) t.1, t.2) := fun _ le => ⟨rfl, le, h slot (Nat.le_refl _)⟩

/-- Code that leaves no local leaves the stack as high as it was. -/
theorem Tree.Declares.level {t : Tree × Nat} {slot floor : Nat} (h : Declares slot t)
    (none : t.2 = 0) (le : floor ≤ slot) : t.1.Takes floor slot slot := by
  have here := h floor le
  rwa [none] at here

variable (ctx : Typing.Context)

mutual

/-- The code of a well-typed statement leaves the variable that it declares, if it does. -/
theorem declares_tree {names : Resolving.Context} {locals : Scope} (slot : Nat) (site : Site)
    (s : Stmt) (bound : ctx.bound = env.bound)
    (result : ctx.result ≠ .base .void → ctx.result.Proper)
    (firm : ∀ u ∈ s.uses names locals site, u.Firm env.bound)
    (typed : s.WellTyped ctx site) (compares : s.ComparesValues env.bound site) :
    Only (s.tree env arity slot site) fun t => t.2 = s.isDeclaration.toNat ∧ Declares slot t := by
  have marked {x : Emitted (Tree × Nat)} {n : Nat} (h : Only x fun t => t.2 = n ∧ Declares slot t) :
      Only (x.map fun t => (Tree.marked (.stmt slot) t.1, t.2)) fun t =>
        t.2 = n ∧ Declares slot t :=
    h.map fun _ both => ⟨both.1, both.2.stmt⟩
  match s with
  | .unknown .. => exact .error _
  | .block stmts pos =>
    refine marked ((declares_trees slot site.stmt 0 stmts bound result firm typed compares).bind
      fun inner all => .ok ⟨rfl, fun floor le => ?_⟩)
    dsimp only
    split
    · rename_i none
      exact Declares.level all none le
    · exact ⟨_, all floor le, turns_pop inner.2 floor slot le⟩
  | .declare var init pos =>
    obtain ⟨given, typed, fits⟩ := typed
    rw [bound] at typed fits
    have ⟨type, inRest⟩ := List.forall_mem_cons.mp firm
    have inInit := (List.forall_mem_cons.mp inRest).2
    exact marked ((turns_tree site.init init inInit typed (type.ne_void_of_compatible fits)
      compares).bind fun _ one => .ok ⟨rfl, one.declares⟩)
  | .assign target value pos =>
    obtain ⟨expected, typedTarget, given, typed, fits⟩ := typed
    rw [bound] at typedTarget typed
    have ⟨here, inValue⟩ := List.forall_mem_cons.mp firm
    have proper := here expected (valueType_of_targetType typedTarget)
    exact marked ((turns_storeTree _ target (turns_tree site.value value inValue typed
      (proper.ne_void_of_compatible fits) compares)).bind fun _ none => .ok ⟨rfl, none.declares⟩)
  | .assignIndex target index value pos =>
    obtain ⟨type, typedTarget, i, typedIndex, given, typed, int, fits⟩ := typed
    rw [bound] at typedTarget typedIndex typed
    have ⟨here, inRest⟩ := List.forall_mem_cons.mp firm
    have ⟨inIndex, inValue⟩ := List.forall_mem_append.mp inRest
    have proper := here type (valueType_of_targetType typedTarget)
    exact marked ((turns_elementStoreTree site target
      (turns_tree site.index index inIndex typedIndex (ValueType.ne_void_of_isBase int (by decide))
        compares.1)
      (turns_tree site.value value inValue typed (ne_void_of_storable proper fits) compares.2)).bind
      fun _ none => .ok ⟨rfl, none.declares⟩)
  | .call r args pos =>
    obtain ⟨d, found, types, typedArgs, typed⟩ := typed
    rw [bound] at found typedArgs typed
    have ⟨here, inArgs⟩ := List.forall_mem_cons.mp firm
    exact marked ((turns_callTree site r args pos here inArgs found typedArgs typed compares).bind
      fun _ none => .ok ⟨rfl, none.declares⟩)
  | .ret none pos => exact marked (.ok ⟨rfl, Turns.declares (turns_item rfl)⟩)
  | .ret (some value) pos =>
    obtain ⟨given, typed, notVoid, fits⟩ := typed
    rw [bound] at typed
    have one := turns_tree site.value value firm typed ((result notVoid).ne_void_of_compatible fits)
      compares
    exact marked (one.bind fun _ one => .ok ⟨rfl, Turns.declares (one.seq (turns_item rfl))⟩)
  | .ifThen cond body pos =>
    obtain ⟨⟨given, typed, boolean⟩, typedBody⟩ := typed
    rw [bound] at typed
    have ⟨inCond, inRest⟩ := List.forall_mem_append.mp firm
    have ⟨branch, inBody⟩ := List.forall_mem_cons.mp inRest
    refine marked ((turns_tree site.cond cond inCond typed (ValueType.ne_void_of_isBase boolean
      (by decide)) compares.1).bind fun test one => (declares_tree slot site.thenBranch body bound
        result inBody typedBody compares.2).bind fun code both => .ok ?_)
    obtain ⟨none, inner⟩ := both
    rw [branch] at none
    exact ⟨none,
      fun floor le => ⟨le, one floor slot le, inner.level none le, congrArg (slot + ·) none⟩⟩
  | .ifElse cond body other pos =>
    obtain ⟨⟨given, typed, boolean⟩, typedBody, typedOther⟩ := typed
    rw [bound] at typed
    have ⟨inCond, inRest⟩ := List.forall_mem_append.mp firm
    have ⟨inBody, inOther⟩ := List.forall_mem_append.mp (List.forall_mem_cons.mp inRest).2
    have branch := (List.forall_mem_cons.mp inRest).1
    have ⟨branch', inOther⟩ := List.forall_mem_cons.mp inOther
    refine marked ((turns_tree site.cond cond inCond typed (ValueType.ne_void_of_isBase boolean
      (by decide)) compares.1).bind fun test one => (declares_tree slot site.thenBranch body bound
        result inBody typedBody compares.2.1).bind fun code both =>
          (declares_tree (slot + code.2) site.elseBranch other bound result inOther typedOther
            compares.2.2).bind fun otherCode both' => .ok ?_)
    obtain ⟨none, inner⟩ := both
    obtain ⟨none', inner'⟩ := both'
    rw [branch] at none
    rw [branch'] at none'
    rw [none] at inner'
    have both : code.2 + otherCode.2 = 0 := by
      rw [none, none']
      rfl
    exact ⟨both, fun floor le =>
      ⟨le, one floor slot le, inner.level none le, inner'.level none' le, congrArg (slot + ·) both⟩⟩
  | .loop cond body pos =>
    obtain ⟨⟨given, typed, boolean⟩, typedBody⟩ := typed
    rw [bound] at typed
    have ⟨inCond, inRest⟩ := List.forall_mem_append.mp firm
    have ⟨branch, inBody⟩ := List.forall_mem_cons.mp inRest
    refine marked ((declares_tree slot site.thenBranch body bound result inBody typedBody
      compares.2).bind fun code both => (turns_tree site.cond cond inCond typed
        (ValueType.ne_void_of_isBase boolean (by decide)) compares.1).bind fun test one => .ok ?_)
    obtain ⟨none, inner⟩ := both
    rw [branch] at none
    exact ⟨none,
      fun floor le => ⟨le, one floor slot le, inner.level none le, congrArg (slot + ·) none⟩⟩

theorem declares_trees {names : Resolving.Context} {locals : Scope} (slot : Nat)
    (sites : Nat → Site) (k : Nat) (stmts : List Stmt) (bound : ctx.bound = env.bound)
    (result : ctx.result ≠ .base .void → ctx.result.Proper)
    (firm : ∀ u ∈ Stmt.usesFrom names locals sites k stmts, u.Firm env.bound)
    (typed : Stmt.AllWellTyped ctx sites k stmts)
    (compares : Stmt.AllCompareValues env.bound sites k stmts) :
    Only (Stmt.trees env arity slot sites k stmts) (Declares slot) := by
  match stmts with
  | [] => exact .ok fun _ _ => rfl
  | s :: rest =>
    have ⟨here, later⟩ := List.forall_mem_append.mp firm
    refine (declares_tree slot (sites k) s bound result here typed.1 compares.1).bind
      fun first both =>
        (declares_trees (slot + first.2) sites (k + 1) rest bound result later typed.2
        compares.2).bind fun more all => .ok fun floor le => ⟨_, both.2 floor le, ?_⟩
    rw [← Nat.add_assoc]
    exact all floor (Nat.le_add_right_of_le le)

end

end Walk

end Statements

end Emission

end JamCompiler

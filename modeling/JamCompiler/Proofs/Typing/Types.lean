import JamCompiler.Typing
import JamCompiler.Proofs.CleanRun
import JamCompiler.Proofs.Frame

/-!
# The types of expressions

The type that an expression has, if it has one, and when a statement is well typed, as functions of
the tree and of what the names are bound to. `check_decides` says that checking decides them: it
ends without an error exactly if all bodies are well typed.
-/

namespace JamCompiler

open Pass

namespace Typing

/-- The type of what a reference denotes when it stands for a value. -/
def valueType? (bound : Site → Option Decl) (site : Site) (r : Reference) : Option ValueType :=
  (bound site).bind fun d => match r, d with
    | .this _, _ => some (d.type bound)
    | _, .cls _ | _, .method .. => none
    | _, _ => if d = Predefined.out then none else some (d.type bound)

/-- The type of what a reference denotes when it is assigned to. -/
def targetType? (bound : Site → Option Decl) (site : Site) (r : Reference) : Option ValueType :=
  (bound site).bind fun d => match r, d with
    | .this _, _ => none
    | _, .cls _ | _, .method .. => none
    | _, _ =>
      if d = Predefined.length then none else if d = Predefined.out then none
      else some (d.type bound)

def unaryType? (op : UnaryOp) (given : ValueType) : Option ValueType :=
  match op with
  | .neg => if given.isBase .int then some (.base .int) else none
  | .not => if given.isBase .boolean then some (.base .boolean) else none
  | .other _ => none

def binaryType? (op : BinaryOp) (left right : ValueType) : Option ValueType :=
  let onInts (result : BaseType) : Option ValueType :=
    if left.isBase .int && right.isBase .int then some (.base result) else none
  match op with
  | .add | .sub | .mul | .div => onInts .int
  | .lt | .le | .gt | .ge => onInts .boolean
  | .eq | .ne => if left.compatible right then some (.base .boolean) else none
  | .and | .or =>
    if left.isBase .boolean && right.isBase .boolean then some (.base .boolean) else none
  | .other _ => none

/-- The type of an element of what has a type. -/
def elementType? (type : ValueType) : Option ValueType :=
  match type with
  | .array element => some element
  | .base .error => some type
  | _ => none

/-- Whether arguments go with parameters, as far as there are both. -/
def ArgsFit : List ValueType → List (ParamDecl × ValueType) → Prop
  | given :: args, (_, expected) :: params => expected.compatible given ∧ ArgsFit args params
  | _, _ => True

instance ArgsFit.decidable : ∀ args params, Decidable (ArgsFit args params)
  | given :: args, (_, expected) :: params =>
    have := ArgsFit.decidable args params
    inferInstanceAs (Decidable (expected.compatible given ∧ ArgsFit args params))
  | [], _ => isTrue trivial
  | _ :: _, [] => isTrue trivial

/-- The type of a call with arguments of the types given. -/
def callType? (bound : Site → Option Decl) (d : Decl) (args : List ValueType) :
    Option ValueType :=
  match d with
  | .method home head =>
    if args.length = head.params.length ∧ ArgsFit args (head.paramTypes bound home) then
      some (d.type bound)
    else none
  | _ => none

end Typing

open Typing

mutual

def Expr.type? (bound : Site → Option Decl) (site : Site) : Expr → Option ValueType
  | .int .. => some (.base .int)
  | .bool .. => some (.base .boolean)
  | .null _ => some (.base .null)
  | .unary op operand _ => (operand.type? bound site.operand).bind (unaryType? op)
  | .binary op left right _ =>
    (left.type? bound site.left).bind fun l =>
      (right.type? bound site.right).bind fun r => binaryType? op l r
  | .ref r _ => valueType? bound site.target r
  | .index r i _ =>
    (valueType? bound site.target r).bind fun type =>
      (i.type? bound site.index).bind fun given =>
        if given.isBase .int then elementType? type else none
  | .call _ args _ =>
    (bound site.target).bind fun d =>
      (Expr.argTypes? bound site 0 args).bind (callType? bound d)
  | .newObject type _ => some (type.view bound site.type)
  | .newArray element size _ =>
    (size.type? bound site.size).bind fun given =>
      if given.isBase .int then some (.array (element.view bound site.type)) else none
  | .unknown .. => none

/-- The types of the arguments of a call from the `k`th on. -/
def Expr.argTypes? (bound : Site → Option Decl) (call : Site) (k : Nat) :
    List Expr → Option (List ValueType)
  | [] => some []
  | e :: rest =>
    (e.type? bound (call.arg k)).bind fun type =>
      (Expr.argTypes? bound call (k + 1) rest).map (type :: ·)

end

namespace Stmt

/-- Whether a value may be stored in what has a type. -/
def Storable (type given : ValueType) : Prop :=
  match type with
  | .array element => element.compatible given
  | .base .error => True
  | _ => False

/-- Whether a method may return a value, or nothing. -/
def Returnable (ctx : Context) (site : Site) : Option Expr → Prop
  | none => ctx.result = .base .void
  | some value => ∃ given, value.type? ctx.bound site.value = some given ∧
      ctx.result ≠ .base .void ∧ ctx.result.compatible given

/-- Whether an expression may be a condition. -/
def Conditional (ctx : Context) (site : Site) (cond : Expr) : Prop :=
  ∃ given, cond.type? ctx.bound site = some given ∧ given.isBase .boolean

mutual

def WellTyped (ctx : Context) (site : Site) : Stmt → Prop
  | block stmts _ => AllWellTyped ctx site.stmt 0 stmts
  | declare var init _ => ∃ given, init.type? ctx.bound site.init = some given ∧
      (var.type.view ctx.bound site.var.type).compatible given
  | assign target value _ =>
    ∃ expected, targetType? ctx.bound site.target target = some expected ∧
    ∃ given, value.type? ctx.bound site.value = some given ∧ expected.compatible given
  | assignIndex target index value _ =>
    ∃ type, targetType? ctx.bound site.target target = some type ∧
    ∃ i, index.type? ctx.bound site.index = some i ∧
    ∃ given, value.type? ctx.bound site.value = some given ∧ i.isBase .int ∧ Storable type given
  | call _ args _ => ∃ d, ctx.bound site.target = some d ∧
    ∃ types, Expr.argTypes? ctx.bound site 0 args = some types ∧
      (callType? ctx.bound d types).isSome
  | ret value _ => Returnable ctx site value
  | ifThen cond body _ | loop cond body _ =>
    Conditional ctx site.cond cond ∧ WellTyped ctx site.thenBranch body
  | ifElse cond body other _ => Conditional ctx site.cond cond ∧
      WellTyped ctx site.thenBranch body ∧ WellTyped ctx site.elseBranch other
  | unknown .. => False

/-- The statements of a list from the `k`th on, whose sites are given. -/
def AllWellTyped (ctx : Context) (sites : Nat → Site) (k : Nat) : List Stmt → Prop
  | [] => True
  | s :: rest => WellTyped ctx (sites k) s ∧ AllWellTyped ctx sites (k + 1) rest

end

theorem allWellTyped_append {ctx : Context} {sites : Nat → Site} {k : Nat} {xs ys : List Stmt} :
    AllWellTyped ctx sites k (xs ++ ys) ↔
      AllWellTyped ctx sites k xs ∧ AllWellTyped ctx sites (k + xs.length) ys := by
  induction xs generalizing k with
  | nil => simp [AllWellTyped]
  | cons s rest ih =>
    simp only [List.cons_append, AllWellTyped, ih, List.length_cons, and_assoc]
    rw [Nat.add_assoc, Nat.add_comm 1]

end Stmt

namespace Typing

/-- A strict run gives an answer, or is stopped, and adds entries in a region. -/
abbrev Gives {α : Type} (x : Typing α) (m : SiteMap ValueType) (region : Region) (o : Option α) :
    Prop :=
  Decides x m o.isSome fun a m' => o = some a ∧ SiteMap.Grown region m m'

section Gives

variable {α β : Type} {x : Typing α} {f : α → Typing β} {m : SiteMap ValueType} {a b : Region}
variable {o : Option α} {g : α → Option β} {ctx : Context} {site : Site}

theorem gives_of_answers (h : Answers x m o) (region : Region) : Gives x m region o :=
  h.decides.mono fun _ _ _ ⟨found, same⟩ => ⟨found, same ▸ .refl _ _⟩

theorem gives_fatal (fault : Fault) (pos : Nat) (m : SiteMap ValueType) (region : Region) :
    Gives (Pass.fatal fault pos : Typing α) m region none :=
  Decides.fatal.congr (by simp)

theorem Gives.bind (first : Gives x m a o) (sub : a.Sub b)
    (next : ∀ c m', o = some c → SiteMap.Grown a m m' → Gives (f c) m' b (g c)) :
    Gives (x >>= f) m b (o.bind g) := by
  cases o with
  | none => exact first.bind_stop (by simp) (by simp)
  | some c =>
    refine (Decides.bind first (d := (g c).isSome) ?_).congr (by simp)
    rintro - _ m' ⟨⟨⟩, grown⟩
    exact (next c m' rfl grown).mono fun _ d m'' ⟨found, grown'⟩ =>
      ⟨found, (grown.up sub).trans grown'⟩

/-- A node without a type gets one. -/
theorem gives_record (free : m.get? site = none) (type : ValueType) :
    Gives (record site type) m site.below (some type) := by
  refine Decides.ok type (m.fill site type) ?_ rfl ⟨rfl, SiteMap.grown_fill m site type⟩
  have known : (m.fill site type).get? site = some type := SiteMap.get?_fill_free free type
  simp only [record, EStateM.run_bind, run_modifyOwn, run_getOwn, EStateM.run_pure, strict, known,
    Option.getD_some]

/-- A fault that is reported unless a condition holds, before a step goes on. -/
theorem gives_unless {c : Bool} {fault : TypeFault} {pos : Nat} {next : Unit → Typing α}
    (after : Gives (next ()) m b o) :
    Gives (if (!c) = true then reportType fault pos >>= next else next ()) m b
      (if c then o else none) := by
  cases c with
  | true => exact after
  | false => exact gives_of_answers (.bind_none (.report _ _ m)) b

theorem answers_declOf (ctx : Context) (site : Site) (r : Reference) (m : SiteMap ValueType) :
    Answers (declOf ctx site r) m (ctx.bound site) := by
  unfold declOf
  cases ctx.bound site with
  | some d => exact .pure d m
  | none => exact ⟨_, _, run_fatal _ _ _⟩

theorem answers_faulty (fault : TypeFault) (pos : Nat) (m : SiteMap ValueType) :
    Answers (faulty fault pos) m none :=
  .bind_none (.report _ _ m)

theorem answers_checkValue (ctx : Context) (site : Site) (r : Reference) (m : SiteMap ValueType) :
    Answers (checkValue ctx site r) m (valueType? ctx.bound site r) := by
  refine (answers_declOf ctx site r m).bind fun d => ?_
  cases r with
  | this pos => exact .pure _ m
  | ident | qualified | unknown =>
    cases d with
    | cls | method => exact answers_faulty _ _ m
    | field | param | var =>
      dsimp only
      split
      · exact answers_faulty _ _ m
      · exact .pure _ m

theorem answers_checkTarget (ctx : Context) (site : Site) (r : Reference) (m : SiteMap ValueType) :
    Answers (checkTarget ctx site r) m (targetType? ctx.bound site r) := by
  refine (answers_declOf ctx site r m).bind fun d => ?_
  cases r with
  | this pos => exact answers_faulty _ _ m
  | ident | qualified | unknown =>
    cases d with
    | cls | method => exact answers_faulty _ _ m
    | field | param | var =>
      dsimp only
      split
      · exact answers_faulty _ _ m
      · split
        · exact answers_faulty _ _ m
        · exact .pure _ m

theorem answers_checkUnary (op : UnaryOp) (pos : Nat) (given : ValueType)
    (m : SiteMap ValueType) : Answers (checkUnary op pos given) m (unaryType? op given) := by
  unfold checkUnary unaryType?
  cases op with
  | neg | not =>
    dsimp only
    split
    · exact .pure _ m
    · exact answers_faulty _ _ m
  | other text => exact ⟨_, _, run_fatal _ _ _⟩

theorem answers_checkBinary (op : BinaryOp) (pos : Nat) (left right : ValueType)
    (m : SiteMap ValueType) :
    Answers (checkBinary op pos left right) m (binaryType? op left right) := by
  unfold checkBinary binaryType?
  cases op with
  | other text => exact ⟨_, _, run_fatal _ _ _⟩
  | or | and | eq | ne | lt | le | gt | ge | add | sub | mul | div =>
    dsimp only
    split
    · exact .pure _ m
    · exact answers_faulty _ _ m

theorem answers_matchArgs (method : String) (args : List (Nat × ValueType))
    (params : List (ParamDecl × ValueType)) (m : SiteMap ValueType) :
    Answers (matchArgs method args params) m
      (if ArgsFit (args.map Prod.snd) params then some () else none) := by
  induction args generalizing params with
  | nil => exact .pure _ m
  | cons arg rest ih =>
    cases params with
    | nil => exact .pure _ m
    | cons p params =>
      obtain ⟨pos, given⟩ := arg
      obtain ⟨param, expected⟩ := p
      by_cases fits : expected.compatible given
      · have same : ArgsFit (given :: rest.map Prod.snd) ((param, expected) :: params) ↔
            ArgsFit (rest.map Prod.snd) params := by simp [ArgsFit, fits]
        simp only [matchArgs, fits, List.map_cons, same]
        exact ih params
      · have none : ¬ ArgsFit (given :: rest.map Prod.snd) ((param, expected) :: params) :=
          fun h => fits h.1
        simp only [matchArgs, fits, List.map_cons, if_neg none]
        exact .bind_none (.report _ _ m)

theorem answers_checkCall (ctx : Context) (d : Decl) (r : Reference) (pos : Nat)
    (args : List (Nat × ValueType)) (m : SiteMap ValueType) :
    Answers (checkCall ctx d r pos args) m (callType? ctx.bound d (args.map Prod.snd)) := by
  unfold checkCall callType?
  cases d with
  | cls | field | param | var => exact .bind_none (.report _ _ m)
  | method home head =>
    dsimp only
    by_cases count : args.length = head.params.length
    · rw [if_neg (not_not_intro count)]
      have fit := answers_matchArgs head.name args (head.paramTypes ctx.bound home) m
      rw [List.length_map]
      split at fit
      · rename_i fits
        rw [if_pos ⟨count, fits⟩]
        exact .bind_some fit (.pure _ m)
      · rename_i fails
        rw [if_neg fun h => fails h.2]
        exact .bind_none fit
    · rw [if_pos count, List.length_map, if_neg fun h => count h.1]
      exact .bind_none (.report _ _ m)

end Gives

/-- A step that is followed by the record of its answer. -/
theorem Gives.recorded {x : Typing ValueType} {m : SiteMap ValueType} {a : Region} {site : Site}
    {o : Option ValueType} (h : Gives x m a o) (inside : a.Sub site.below) (apart : ¬ a site)
    (free : m.get? site = none) : Gives (x >>= record site) m site.below o := by
  have both := h.bind inside (g := some) fun c m' _ grown =>
    gives_record ((grown.same apart).trans free) c
  rwa [Option.bind_fun_some] at both

/-- The same for a step that leaves the types alone. -/
theorem recorded_of_answers {x : Typing ValueType} {m : SiteMap ValueType} {site : Site}
    {o : Option ValueType} (h : Answers x m o) (free : m.get? site = none) :
    Gives (x >>= record site) m site.below o :=
  (gives_of_answers h Region.empty).recorded (Region.empty_sub _) id free

section Expressions

variable (ctx : Context)

theorem free_self {m : SiteMap ValueType} {site : Site} (free : m.Free site.below) :
    m.get? site = none :=
  free site (List.suffix_refl site)

theorem not_below_child (s : Site) (k : Nat) : ¬ (s.child k).below s := s.not_child_suffix k

theorem not_itemsFrom (s : Site) (list k : Nat) : ¬ s.itemsFrom list k s :=
  fun h => s.not_child_suffix list (s.itemsFrom_sub_child list k s h)

theorem gives_element {m : SiteMap ValueType} {site : Site} (type : ValueType) (pos : Nat)
    (self : m.get? site = none) :
    Gives (match type with
      | .array element => record site element
      | .base .error => record site type
      | _ => do record site (← faulty (.notIndexable type) pos)) m site.below
      (elementType? type) := by
  unfold elementType?
  split
  · exact gives_record self _
  · exact gives_record self _
  · exact recorded_of_answers (.bind_none (.report _ _ m)) self

mutual

/-- Checking an expression answers its type, and ends only if it has one. -/
theorem gives_checkExpr {m : SiteMap ValueType} (site : Site) (e : Expr)
    (free : m.Free site.below) :
    Gives (checkExpr ctx site e) m site.below (e.type? ctx.bound site) := by
  have self := free_self free
  match e with
  | .int .. | .bool .. | .null .. => exact gives_record self _
  | .unknown .. => exact gives_fatal _ _ _ _
  | .unary op operand pos =>
    have inner := gives_checkExpr site.operand operand (free.down (site.child_sub 0))
    refine inner.bind (site.child_sub 0) fun given m' _ grown => ?_
    have self' := (grown.same (not_below_child site 0)).trans self
    exact recorded_of_answers (answers_checkUnary op pos given m') self'
  | .binary op left right pos =>
    have first := gives_checkExpr site.left left (free.down (site.child_sub 0))
    refine first.bind (site.child_sub 0) fun l m' _ grown => ?_
    have rightFree := (free.down (site.child_sub 1)).grown grown
      (Site.children_apart (s := site) (k := 1) (l := 0) (by simp))
    have second := gives_checkExpr site.right right rightFree
    refine second.bind (site.child_sub 1) fun r m'' _ grown' => ?_
    have self' := (grown'.same (not_below_child site 1)).trans
      ((grown.same (not_below_child site 0)).trans self)
    exact recorded_of_answers (answers_checkBinary op pos l r m'') self'
  | .ref r pos => exact recorded_of_answers (answers_checkValue ctx site.target r m) self
  | .index r i pos =>
    refine (gives_of_answers (answers_checkValue ctx site.target r m) Region.empty).bind
      (Region.empty_sub _) fun type m' _ grown => ?_
    have indexFree := (free.down (site.child_sub 1)).grown grown (Region.empty_apart _).symm
    have inner := gives_checkExpr site.index i indexFree
    refine inner.bind (site.child_sub 1) fun given m'' _ grown' => ?_
    have self' := (grown'.same (not_below_child site 1)).trans ((grown.same id).trans self)
    exact gives_unless (gives_element type r.pos self')
  | .call method args pos =>
    refine (gives_of_answers (answers_declOf ctx site.target method m) Region.empty).bind
      (Region.empty_sub _) fun d m' _ grown => ?_
    have argsFree := (free.down (site.itemsFrom_sub 1 0)).grown grown (Region.empty_apart _).symm
    have given := gives_checkArgs site 0 args argsFree
    cases known : Expr.argTypes? ctx.bound site 0 args with
    | none =>
      rw [known] at given
      exact given.bind_stop (by simp) (by simp)
    | some types =>
      rw [known] at given
      refine (Decides.bind given (d := (callType? ctx.bound d types).isSome)
        (Q := fun a m'' => callType? ctx.bound d types = some a ∧ SiteMap.Grown site.below m' m'')
        ?_).congr (by simp)
      rintro - pairs m'' ⟨same, grown'⟩
      have self' := (grown'.same (not_itemsFrom site 1 0)).trans ((grown.same id).trans self)
      have call := recorded_of_answers (answers_checkCall ctx d method pos pairs m'') self'
      rw [← Option.some.inj same] at call
      exact call.mono fun _ _ _ ⟨found, grown''⟩ =>
        ⟨found, (grown'.up (site.itemsFrom_sub 1 0)).trans grown''⟩
  | .newObject type pos => exact gives_record self (type.view ctx.bound site.type)
  | .newArray element size pos =>
    have inner := gives_checkExpr site.size size (free.down (site.child_sub 1))
    refine inner.bind (site.child_sub 1) fun given m' _ grown => ?_
    have self' := (grown.same (not_below_child site 1)).trans self
    exact gives_unless (gives_record self' _)

/-- Checking arguments answers their types. -/
theorem gives_checkArgs {m : SiteMap ValueType} (call : Site) (k : Nat) (args : List Expr)
    (free : m.Free (call.itemsFrom 1 k)) :
    Decides (checkArgs ctx call k args) m (Expr.argTypes? ctx.bound call k args).isSome
      fun answer m' => Expr.argTypes? ctx.bound call k args = some (answer.map Prod.snd) ∧
        SiteMap.Grown (call.itemsFrom 1 k) m m' := by
  match args with
  | [] => exact Decides.ok [] m rfl rfl ⟨rfl, .refl _ _⟩
  | e :: rest =>
    have first := gives_checkExpr (call.arg k) e (free.down (call.item_sub_itemsFrom 1 k))
    cases here : e.type? ctx.bound (call.arg k) with
    | none =>
      rw [here] at first
      refine (first.bind_stop (by simp) (d := False) id).congr ?_
      simp [Expr.argTypes?, here]
    | some type =>
      rw [here] at first
      refine (Decides.bind first
        (d := (Expr.argTypes? ctx.bound call (k + 1) rest).isSome) ?_).congr
        (by simp [Expr.argTypes?, here])
      rintro - _ m' ⟨⟨⟩, grown⟩
      have restFree := (free.down (call.itemsFrom_succ_sub 1 k)).grown grown
        (call.item_apart_rest 1 k).symm
      have later := gives_checkArgs call (k + 1) rest restFree
      refine later.before ?_
      rintro - pairs m'' ⟨types, grown'⟩
      refine Decides.pure ⟨by simp [Expr.argTypes?, here, types], ?_⟩
      exact (grown.up (call.item_sub_itemsFrom 1 k)).trans
        (grown'.up (call.itemsFrom_succ_sub 1 k))

end

end Expressions

/-- A strict run comes to its end exactly if a condition holds, and adds entries in a region. -/
abbrev Checks (x : Typing Unit) (m : SiteMap ValueType) (region : Region) (cond : Prop) : Prop :=
  Decides x m cond fun _ m' => SiteMap.Grown region m m'

section Checks

variable {α : Type} {m : SiteMap ValueType} {a b : Region} {P Q : Prop} {o : Option α}

theorem Gives.checks {x : Typing α} {f : α → Typing Unit} {R : α → Prop} (first : Gives x m a o)
    (sub : a.Sub b) (next : ∀ c m', SiteMap.Grown a m m' → Checks (f c) m' b (R c)) :
    Checks (x >>= f) m b (∃ c, o = some c ∧ R c) := by
  cases o with
  | none => exact first.bind_stop (by simp) (by simp)
  | some c =>
    refine (Decides.bind first (d := R c) (Q := fun _ m' => SiteMap.Grown b m m') ?_).congr
      (by simp)
    rintro - _ m' ⟨⟨⟩, grown⟩
    exact (next c m' grown).mono fun _ _ _ grown' => (grown.up sub).trans grown'

theorem Checks.bind {x : Typing Unit} {f : Unit → Typing Unit} (first : Checks x m a P)
    (sub : a.Sub b) (next : ∀ m', SiteMap.Grown a m m' → Checks (f ()) m' b Q) :
    Checks (x >>= f) m b (P ∧ Q) := by
  refine Decides.bind first fun _ _ m' grown => ?_
  exact (next m' grown).mono fun _ _ _ grown' => (grown.up sub).trans grown'

theorem Checks.up {x : Typing Unit} (h : Checks x m a P) (sub : a.Sub b) : Checks x m b P :=
  h.mono fun _ _ _ grown => grown.up sub

theorem checks_pure (m : SiteMap ValueType) (region : Region) :
    Checks (pure ()) m region True := Decides.pure (.refl _ _)

theorem checks_report (fault : TypeFault) (pos : Nat) (m : SiteMap ValueType) (region : Region) :
    Checks (reportType fault pos) m region False := Decides.report

/-- A fault that is reported unless a condition holds, before a step goes on. -/
theorem checks_unless {c : Bool} {fault : TypeFault} {pos : Nat} {next : Unit → Typing Unit}
    (after : Checks (next ()) m b P) :
    Checks (if (!c) = true then reportType fault pos >>= next else next ()) m b (c = true ∧ P) := by
  cases c with
  | true => exact after.congr (by simp)
  | false => exact Decides.report.bind_stop (P := fun _ _ => True) id (by simp)

/-- A fault that is reported unless a condition holds, as the last step. -/
theorem checks_if {c : Bool} {fault : TypeFault} {pos : Nat} (m : SiteMap ValueType) (b : Region) :
    Checks (if (!c) = true then reportType fault pos else pure ()) m b (c = true) := by
  cases c with
  | true => exact (checks_pure m b).congr (by simp)
  | false => exact (checks_report fault pos m b).congr (by simp)

theorem checks_finish (site : Site) (m : SiteMap ValueType) :
    Checks (finish site) m site.below True := by
  refine Decides.discard ?_
  exact Decides.ok _ (m.fill site (.base .unsupported)) rfl trivial (SiteMap.grown_fill m site _)

/-- A step after which the statement is finished. -/
theorem Checks.finished {x : Typing Unit} {site : Site} (h : Checks x m a P)
    (sub : a.Sub site.below) : Checks (x >>= fun _ => finish site) m site.below P :=
  (h.bind sub fun m' _ => checks_finish site m').congr (by simp)

theorem checks_unless_finish {c : Bool} {fault : TypeFault} {pos : Nat} {site : Site}
    (m : SiteMap ValueType) :
    Checks (if (!c) = true then reportType fault pos >>= fun _ => finish site else finish site) m
      site.below (c = true) := by
  cases c with
  | true => exact (checks_finish site m).congr (by simp)
  | false => exact Decides.report.bind_stop (P := fun _ _ => True) id (by simp)

end Checks

section Statements

variable (ctx : Context)

theorem checks_condition {m : SiteMap ValueType} (site : Site) (statement : String) (cond : Expr)
    (free : m.Free site.below) : Checks (checkCondition ctx site statement cond) m site.below
      (Stmt.Conditional ctx site cond) :=
  (gives_checkExpr ctx site cond free).checks (.refl _) fun _ m' _ => checks_if m' _

theorem checks_return {m : SiteMap ValueType} (site : Site) (pos : Nat) (value : Option Expr)
    (free : m.Free (site.child 2).below) : Checks (checkReturn ctx site pos value) m
      (site.child 2).below (Stmt.Returnable ctx site value) := by
  cases value with
  | none =>
    unfold checkReturn Stmt.Returnable
    by_cases void : ctx.result = .base .void
    · simp only [void, ne_eq, not_true_eq_false, if_false]
      exact (checks_pure m _).congr (by simp)
    · simp only [void, ne_eq, not_false_eq_true, if_true]
      exact checks_report _ _ _ _
  | some value =>
    refine ((gives_checkExpr ctx site.value value free).checks (.refl _)
      (R := fun given => ctx.result ≠ .base .void ∧ ctx.result.compatible given = true)
      fun given m' _ => ?_).congr Iff.rfl
    by_cases void : ctx.result = .base .void
    · simp only [void, if_true]
      exact (checks_report _ _ _ _).congr (by simp)
    · simp only [void, if_false]
      exact (checks_if m' _).congr (by simp [void])

mutual

/-- Checking a statement ends exactly if it is well typed. -/
theorem checks_checkStmt {m : SiteMap ValueType} (site : Site) (s : Stmt)
    (free : m.Free site.below) :
    Checks (checkStmt ctx site s) m site.below (s.WellTyped ctx site) := by
  have child (k : Nat) : m.Free (site.child k).below := free.down (site.child_sub k)
  match s with
  | .unknown kind pos => exact (Decides.fatal (P := fun _ _ => True)).mono fun h => h.elim
  | .block stmts pos =>
    exact (checks_checkStmts site 0 stmts
      (free.down (site.itemsFrom_sub 0 0))).finished (site.itemsFrom_sub 0 0)
  | .declare var init pos =>
    exact (gives_checkExpr ctx site.init init (child 1)).checks (site.child_sub 1)
      fun given m' _ => checks_unless_finish m'
  | .assign target value pos =>
    refine (gives_of_answers (answers_checkTarget ctx site.target target m) Region.empty).checks
      (Region.empty_sub _) fun expected m' grown => ?_
    have valueFree := (child 2).grown grown (Region.empty_apart _).symm
    exact (gives_checkExpr ctx site.value value valueFree).checks (site.child_sub 2)
      fun given m'' _ => checks_unless_finish m''
  | .assignIndex target index value pos =>
    refine (gives_of_answers (answers_checkTarget ctx site.target target m) Region.empty).checks
      (Region.empty_sub _) fun type m₁ grown => ?_
    have free₁ := free.grown grown (Region.empty_apart _).symm
    refine (gives_checkExpr ctx site.index index (free₁.down (site.child_sub 1))).checks
      (site.child_sub 1) fun i m₂ grown' => ?_
    have valueFree := (free₁.down (site.child_sub 2)).grown grown' (Site.children_apart (by simp))
    refine (gives_checkExpr ctx site.value value valueFree).checks (site.child_sub 2)
      fun given m₃ _ => checks_unless ?_
    unfold Stmt.Storable
    split
    · exact checks_unless_finish m₃
    · exact checks_finish site m₃
    · rename_i notArray notError
      refine Decides.bind_stop (checks_report _ _ _ site.below) id fun storable => ?_
      cases type with
      | array element => exact notArray element rfl
      | cls => exact storable
      | base b =>
        cases b with
        | error => exact notError rfl
        | int | boolean | void | null | unsupported => exact storable
  | .call method args pos =>
    refine (gives_of_answers (answers_declOf ctx site.target method m) Region.empty).checks
      (Region.empty_sub _) fun d m' grown => ?_
    have argsFree := (free.down (site.itemsFrom_sub 1 0)).grown grown (Region.empty_apart _).symm
    have given := gives_checkArgs ctx site 0 args argsFree
    cases known : Expr.argTypes? ctx.bound site 0 args with
    | none =>
      rw [known] at given
      exact given.bind_stop (by simp) (by simp)
    | some types =>
      rw [known] at given
      refine (Decides.bind given (d := (callType? ctx.bound d types).isSome)
        (Q := fun _ m'' => SiteMap.Grown site.below m' m'') ?_).congr (by simp)
      rintro - pairs m'' ⟨same, grown'⟩
      have call := answers_checkCall ctx d method pos pairs m''
      rw [← Option.some.inj same] at call
      have whole :
          Checks (checkCall ctx d method pos pairs >>= fun _ => finish site) m'' site.below _ :=
        (gives_of_answers call Region.empty).checks (Region.empty_sub site.below)
          (R := fun _ => True)
          fun type m₃ _ => checks_finish site m₃
      refine (whole.mono fun _ _ _ grown'' => ?_).congr (by simp [Option.isSome_iff_exists])
      exact (grown'.up (site.itemsFrom_sub 1 0)).trans grown''
  | .ret value pos =>
    exact (checks_return ctx site pos value (child 2)).finished (site.child_sub 2)
  | .ifThen cond body pos | .loop cond body pos =>
    refine (checks_condition ctx site.cond _ cond (child 0)).bind (site.child_sub 0)
      fun m' grown => ?_
    have bodyFree := (child 1).grown grown (Site.children_apart (by simp))
    exact (checks_checkStmt site.thenBranch body bodyFree).finished (site.child_sub 1)
  | .ifElse cond body other pos =>
    refine (checks_condition ctx site.cond "if" cond (child 0)).bind (site.child_sub 0)
      fun m₁ grown => ?_
    have bodyFree := (child 1).grown grown (Site.children_apart (by simp))
    refine (checks_checkStmt site.thenBranch body bodyFree).bind (site.child_sub 1)
      fun m₂ grown' => ?_
    have otherFree := ((child 2).grown grown (Site.children_apart (by simp))).grown grown'
      (Site.children_apart (by simp))
    exact (checks_checkStmt site.elseBranch other otherFree).finished (site.child_sub 2)

theorem checks_checkStmts {m : SiteMap ValueType} (block : Site) (k : Nat) (stmts : List Stmt)
    (free : m.Free (block.itemsFrom 0 k)) : Checks (checkStmts ctx block k stmts) m
      (block.itemsFrom 0 k) (Stmt.AllWellTyped ctx block.stmt k stmts) := by
  match stmts with
  | [] => exact checks_pure m _
  | s :: rest =>
    have first := checks_checkStmt (block.stmt k) s (free.down (block.item_sub_itemsFrom 0 k))
    refine first.bind (block.item_sub_itemsFrom 0 k) fun m' grown => ?_
    have restFree := (free.down (block.itemsFrom_succ_sub 0 k)).grown grown
      (block.item_apart_rest 0 k).symm
    exact (checks_checkStmts block (k + 1) rest restFree).up (block.itemsFrom_succ_sub 0 k)

end

end Statements

theorem checks_checkBody (ctx : Context) {m : SiteMap ValueType} (method : Site) (k : Nat)
    (stmts : List Stmt) (free : m.Free (method.itemsFrom 2 k)) :
    Checks (checkBody ctx method k stmts) m (method.itemsFrom 2 k)
      (Stmt.AllWellTyped ctx method.body k stmts) := by
  induction stmts generalizing m k with
  | nil => exact checks_pure m _
  | cons s rest ih =>
    have first := checks_checkStmt ctx (method.body k) s
      (free.down (method.item_sub_itemsFrom 2 k))
    refine first.bind (method.item_sub_itemsFrom 2 k) fun m' grown => ?_
    have restFree := (free.down (method.itemsFrom_succ_sub 2 k)).grown grown
      (method.item_apart_rest 2 k).symm
    exact (ih (k + 1) restFree).up (method.itemsFrom_succ_sub 2 k)

end Typing

/-- Whether the body of a method is well typed. -/
def MethodDecl.WellTyped (bound : Site → Option Decl) (site : Site) (m : MethodDecl) : Prop :=
  Stmt.AllWellTyped { bound := bound, home := .user site, method := m.head } site.body 0 m.body

def Program.WellTyped (bound : Site → Option Decl) (p : Program) : Prop :=
  ∀ s ∈ p.sitedMethods, s.2.WellTyped bound s.1

namespace Typing

theorem checks_methods (bound : Site → Option Decl) {m : SiteMap ValueType}
    (methods : List (Site × MethodDecl))
    (apart : methods.Pairwise fun a b => a.1.below.Apart b.1.below)
    (free : ∀ s ∈ methods, m.Free s.1.below) :
    Checks (methods.forM fun (site, d) => checkMethod bound site d) m (fun _ => True)
      (∀ s ∈ methods, s.2.WellTyped bound s.1) := by
  induction methods generalizing m with
  | nil => exact (checks_pure m _).congr (by simp)
  | cons s rest ih =>
    obtain ⟨site, d⟩ := s
    have ⟨here, later⟩ := List.forall_mem_cons.mp free
    have ⟨apartHere, apartLater⟩ := List.pairwise_cons.mp apart
    have first :
        Checks (checkMethod bound site d) m (site.itemsFrom 2 0) (d.WellTyped bound site) :=
      checks_checkBody _ site 0 d.body (here.down (site.itemsFrom_sub 2 0))
    refine (first.bind (b := fun _ => True) (fun _ _ => trivial) (f := fun _ => rest.forM _)
      (Q := ∀ s ∈ rest, s.2.WellTyped bound s.1) fun m' grown => ?_).congr
      (by rw [List.forall_mem_cons])
    exact ih apartLater fun t ht => (later t ht).grown grown
      ((apartHere t ht).symm.mono (.refl _) (site.itemsFrom_sub 2 0))

/-- Checking a program ends without an error exactly if it is well typed. -/
theorem check_decides (bound : Site → Option Decl) (p : Program) :
    Decides (check bound p) {} (p.WellTyped bound) fun _ _ => True :=
  (checks_methods bound p.sitedMethods p.sitedMethods_apart fun _ _ _ _ => rfl).mono
    fun _ _ _ _ => trivial

end Typing

end JamCompiler

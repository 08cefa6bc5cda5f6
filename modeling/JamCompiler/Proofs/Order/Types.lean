import JamCompiler.Proofs.Order.Programs
import JamCompiler.Proofs.Typing.Types

/-!
# Types in moved classes

Expressions have the same types after their class was moved, and statements are well typed if they
were, where the names in them are bound to what they were bound to before, in its new place:
`Use.Agrees`.
-/

namespace JamCompiler

open Typing

namespace ValueType

variable (g : Arrangement)

@[simp] theorem moved_isBase (t : ValueType) (b : BaseType) :
    (t.moved g).isBase b = t.isBase b := by
  cases t <;> simp [isBase, moved, error]

theorem isUnsupportedClass_moved (ref : Option ClassRef) :
    isUnsupportedClass (ref.map (ClassRef.moved g)) = isUnsupportedClass ref := by
  have fixed : ref.map (ClassRef.moved g) = some Predefined.string ↔ ref = some Predefined.string :=
    (Option.map_injective (ClassRef.moved_injective g)).eq_iff (b := some Predefined.string)
  simp only [isUnsupportedClass, Option.map_eq_none_iff, fixed]

theorem moved_compatible (s t : ValueType) :
    (s.moved g).compatible (t.moved g) = s.compatible t := by
  induction s generalizing t with
  | base b =>
    cases t with
    | base b' => rfl
    | cls name ref => cases b <;> simp [moved, compatible]
    | array element => cases b <;> simp [moved, compatible]
  | cls name ref =>
    cases t with
    | base b => cases b <;> simp [moved, compatible]
    | array element => rfl
    | cls name' ref' =>
      simp only [moved, compatible, isUnsupportedClass_moved,
        (Option.map_injective (ClassRef.moved_injective g)).eq_iff]
  | array element ih =>
    cases t with
    | base b => cases b <;> simp [moved, compatible]
    | cls name ref => rfl
    | array element' => simpa [moved, compatible] using ih element'

end ValueType

namespace Typing

variable (g : Arrangement)

theorem unaryType_moved (op : UnaryOp) (t : ValueType) :
    unaryType? op (t.moved g) = (unaryType? op t).map (ValueType.moved g) := by
  cases op with
  | neg | not =>
    simp only [unaryType?, ValueType.moved_isBase]
    split <;> rfl
  | other text => rfl

theorem binaryType_moved (op : BinaryOp) (s t : ValueType) :
    binaryType? op (s.moved g) (t.moved g) = (binaryType? op s t).map (ValueType.moved g) := by
  cases op with
  | other text => rfl
  | or | and | eq | ne | lt | le | gt | ge | add | sub | mul | div =>
    simp only [binaryType?, ValueType.moved_isBase, ValueType.moved_compatible]
    split <;> rfl

theorem elementType_moved (t : ValueType) :
    elementType? (t.moved g) = (elementType? t).map (ValueType.moved g) := by
  cases t with
  | base b => cases b <;> rfl
  | cls | array => rfl

theorem argsFit_moved (args : List ValueType) {params params' : List (ParamDecl × ValueType)}
    (same : params'.map Prod.snd = params.map fun q => q.2.moved g) :
    ArgsFit (args.map (ValueType.moved g)) params' ↔ ArgsFit args params := by
  induction args generalizing params params' with
  | nil => simp [ArgsFit]
  | cons given args ih =>
    cases params with
    | nil =>
      obtain rfl := List.map_eq_nil_iff.mp same
      simp [ArgsFit]
    | cons q params =>
      cases params' with
      | nil => cases same
      | cons q' params' =>
        simp only [List.map_cons, List.cons.injEq] at same
        simp only [List.map_cons, ArgsFit, same.1, ValueType.moved_compatible, ih same.2]

theorem storable_moved (t given : ValueType) :
    Stmt.Storable (t.moved g) (given.moved g) ↔ Stmt.Storable t given := by
  cases t with
  | base b => cases b <;> exact Iff.rfl
  | cls => exact Iff.rfl
  | array element => simp only [ValueType.moved, Stmt.Storable, ValueType.moved_compatible]

end Typing

/-- Whether the types of a declaration after a move are what they were before, in their new
places. -/
structure Decl.Agrees (g : Arrangement) (before after : Site → Option Decl) (d : Decl) : Prop where
  type : (d.moved g).type after = (d.type before).moved g
  params : ∀ home head, d = .method home head →
    ((head.shift (home.distance g)).paramTypes after (home.moved g)).map Prod.snd =
      (head.paramTypes before home).map fun q => q.2.moved g

/-- Whether the names of a use, in a class moved by `n` characters, are bound after the move to what
they were bound to before, in its new place. -/
def Use.Agrees (g : Arrangement) (n : Nat) (before after : Site → Option Decl) : Use → Prop
  | type site t => (t.shift n).view after (site.moved g) = (t.view before site).moved g
  | ref _ _ site _ | callee _ _ site _ => after (site.moved g) = (before site).map (Decl.moved g) ∧
      ∀ d, before site = some d → d.Agrees g before after
  | _ => True

section Expressions

variable {g : Arrangement} {n : Nat} {before after : Site → Option Decl}

theorem Typing.valueType_moved {site : Site} {r : Reference}
    (known : after (site.moved g) = (before site).map (Decl.moved g))
    (agree : ∀ d, before site = some d → d.Agrees g before after) :
    valueType? after (site.moved g) (r.shift n) =
      (valueType? before site r).map (ValueType.moved g) := by
  rw [valueType?, valueType?, known]
  cases found : before site with
  | none => rfl
  | some d =>
    have type := (agree d found).type
    have out := Decl.moved_eq_out g (d := d)
    cases r with
    | this pos => exact congrArg some type
    | ident | qualified | unknown =>
      cases d with
      | cls | method => rfl
      | field | param | var =>
        simp only [Decl.moved] at type out
        simp only [Option.map_some, Option.bind_some, Reference.shift, Decl.moved, out, type]
        split <;> rfl

theorem Typing.targetType_moved {site : Site} {r : Reference}
    (known : after (site.moved g) = (before site).map (Decl.moved g))
    (agree : ∀ d, before site = some d → d.Agrees g before after) :
    targetType? after (site.moved g) (r.shift n) =
      (targetType? before site r).map (ValueType.moved g) := by
  rw [targetType?, targetType?, known]
  cases found : before site with
  | none => rfl
  | some d =>
    have type := (agree d found).type
    have out := Decl.moved_eq_out g (d := d)
    have length := Decl.moved_eq_length g (d := d)
    cases r with
    | this pos => rfl
    | ident | qualified | unknown =>
      cases d with
      | cls | method => rfl
      | field | param | var =>
        simp only [Decl.moved] at type out length
        simp only [Option.map_some, Option.bind_some, Reference.shift,
          Decl.moved, out, length, type]
        split
        · rfl
        · split <;> rfl

theorem Typing.callType_moved {d : Decl} (agree : d.Agrees g before after) (args : List ValueType) :
    callType? after (d.moved g) (args.map (ValueType.moved g)) =
      (callType? before d args).map (ValueType.moved g) := by
  cases d with
  | cls | field | param | var => rfl
  | method home head =>
    have fit := argsFit_moved g args (agree.params home head rfl)
    have type := agree.type
    have count : (head.shift (home.distance g)).params.length = head.params.length :=
      List.length_map _
    simp only [Decl.moved] at type ⊢
    simp only [callType?, fit, type, count, List.length_map]
    split <;> rfl

variable {k : Nat}

/-- Steps that go together with two maps can be chained. -/
theorem bind_map {α β : Type} {o o' : Option α} {e : α → α} {m : β → β} {f f' : α → Option β}
    (first : o' = o.map e) (next : ∀ a, o = some a → f' (e a) = (f a).map m) :
    o'.bind f' = (o.bind f).map m := by
  subst first
  cases o with
  | none => rfl
  | some a => exact next a rfl

theorem isBase_map {b : BaseType} {t : ValueType} {o o' : Option ValueType}
    (same : o' = o.map (ValueType.moved g)) :
    (if (t.moved g).isBase b then o' else none) =
      (if t.isBase b then o else none).map (ValueType.moved g) := by
  rw [ValueType.moved_isBase]
  split
  · exact same
  · rfl

mutual

/-- A moved expression has the type of the expression, in its new place. -/
theorem Expr.type_shift {ctx : Resolving.Context} {locals : Scope} {s s' : Site}
    (at' : g.Moves k s s') (e : Expr)
    (agree : ∀ u ∈ e.uses ctx locals s, u.Agrees g (g.distance k) before after) :
    (e.shift (g.distance k)).type? after s' = (e.type? before s).map (ValueType.moved g) := by
  match e with
  | .int .. | .bool .. | .null .. | .unknown .. => rfl
  | .unary op operand _ =>
    exact bind_map (Expr.type_shift (at'.child 0) operand agree) fun t _ => unaryType_moved g op t
  | .binary op left right _ =>
    obtain ⟨agree₁, agree₂⟩ := List.forall_mem_append.mp agree
    refine bind_map (Expr.type_shift (at'.child 0) left agree₁) fun l _ => ?_
    exact bind_map (Expr.type_shift (at'.child 1) right agree₂) fun r _ => binaryType_moved g op l r
  | .ref r _ =>
    obtain ⟨known, types⟩ := agree _ (List.mem_singleton_self _)
    have value := valueType_moved (n := g.distance k) (r := r) known types
    rwa [Site.target, (at'.child 0).moved] at value
  | .index r i _ =>
    obtain ⟨⟨known, types⟩, agree⟩ := List.forall_mem_cons.mp agree
    have value := valueType_moved (n := g.distance k) (r := r) known types
    rw [Site.target, (at'.child 0).moved] at value
    refine bind_map value fun t _ =>
      bind_map (Expr.type_shift (at'.child 1) i agree) fun given _ => ?_
    exact isBase_map (elementType_moved g t)
  | .call method args _ =>
    obtain ⟨⟨known, types⟩, agree⟩ := List.forall_mem_cons.mp agree
    rw [Site.target, (at'.child 0).moved] at known
    refine bind_map known fun d found => ?_
    exact bind_map (Expr.argTypes_shift at' 0 args agree) fun given _ =>
      callType_moved (types d found) given
  | .newObject type _ =>
    have view : (type.shift (g.distance k)).view after (s.type.moved g) = _ :=
      agree _ (List.mem_singleton_self _)
    rw [Site.type, (at'.child 0).moved] at view
    exact congrArg some view
  | .newArray element size _ =>
    obtain ⟨view, agree⟩ := List.forall_mem_cons.mp agree
    have view : (element.shift (g.distance k)).view after (s.type.moved g) = _ := view
    rw [Site.type, (at'.child 0).moved] at view
    refine bind_map (Expr.type_shift (at'.child 1) size agree) fun given _ => ?_
    exact isBase_map (congrArg (fun t => some (ValueType.array t)) view)

theorem Expr.argTypes_shift {ctx : Resolving.Context} {locals : Scope} {s s' : Site}
    (at' : g.Moves k s s') (i : Nat) (args : List Expr)
    (agree : ∀ u ∈ Expr.argUses ctx locals s i args, u.Agrees g (g.distance k) before after) :
    Expr.argTypes? after s' i (Expr.shiftAll (g.distance k) args) =
      (Expr.argTypes? before s i args).map (List.map (ValueType.moved g)) := by
  match args with
  | [] => rfl
  | e :: rest =>
    obtain ⟨agree₁, agree₂⟩ := List.forall_mem_append.mp agree
    refine bind_map (Expr.type_shift (at'.item 1 i) e agree₁) fun t _ => ?_
    rw [Expr.argTypes_shift at' (i + 1) rest agree₂, Option.map_map, Option.map_map]
    rfl

end

end Expressions

/-- What there is after a map fulfils a condition exactly if it did before. -/
theorem exists_and_map {α : Type} {o o' : Option α} {e : α → α} {P Q : α → Prop}
    (first : o' = o.map e) (next : ∀ a, o = some a → (P (e a) ↔ Q a)) :
    (∃ a, o' = some a ∧ P a) ↔ ∃ a, o = some a ∧ Q a := by
  subst first
  cases o with
  | none => simp
  | some a => simp [next a rfl]

section Statements

variable {g : Arrangement} {k : Nat} {ctx ctx' : Typing.Context}

theorem Stmt.conditional_shift {names : Resolving.Context} {locals : Scope} {s s' : Site}
    (at' : g.Moves k s s') (cond : Expr)
    (agree : ∀ u ∈ cond.uses names locals s, u.Agrees g (g.distance k) ctx.bound ctx'.bound) :
    Conditional ctx' s' (cond.shift (g.distance k)) ↔ Conditional ctx s cond :=
  exists_and_map (cond.type_shift at' agree) fun given _ => by rw [ValueType.moved_isBase]

theorem Stmt.returnable_shift (result : ctx'.result = ctx.result.moved g)
    {names : Resolving.Context} {locals : Scope} {s s' : Site} (at' : g.Moves k s s') (value : Expr)
    (agree : ∀ u ∈ value.uses names locals s.value,
      u.Agrees g (g.distance k) ctx.bound ctx'.bound) :
    Returnable ctx' s' (some (value.shift (g.distance k))) ↔ Returnable ctx s (some value) := by
  have void : ctx.result.moved g = .base .void ↔ ctx.result = .base .void :=
    (ValueType.moved_injective g).eq_iff (b := .base .void)
  refine exists_and_map (value.type_shift (at'.child 2) agree) fun given _ => ?_
  rw [result, ne_eq, void, ValueType.moved_compatible]

mutual

/-- A moved statement is well typed exactly if the statement is. -/
theorem Stmt.wellTyped_shift (result : ctx'.result = ctx.result.moved g)
    {names : Resolving.Context} {locals : Scope} {s s' : Site} (at' : g.Moves k s s') (stmt : Stmt)
    (agree : ∀ u ∈ stmt.uses names locals s, u.Agrees g (g.distance k) ctx.bound ctx'.bound) :
    (stmt.shift (g.distance k)).WellTyped ctx' s' ↔ stmt.WellTyped ctx s := by
  match stmt with
  | .unknown .. => exact Iff.rfl
  | .block stmts _ => exact Stmt.allWellTyped_shift result (fun i => at'.item 0 i) 0 stmts agree
  | .declare var init _ =>
    obtain ⟨view, agree⟩ := List.forall_mem_cons.mp agree
    have view : (var.type.shift (g.distance k)).view ctx'.bound (s.var.type.moved g) =
      (var.type.view ctx.bound s.var.type).moved g := view
    rw [Site.type, Site.var, ((at'.child 0).child 0).moved] at view
    refine exists_and_map (init.type_shift (at'.child 1) (List.forall_mem_cons.mp agree).2)
      fun given _ => ?_
    rw [← ValueType.moved_compatible g (var.type.view ctx.bound s.var.type)]
    exact iff_of_eq (congrArg (fun t => t.compatible (given.moved g) = true) view)
  | .assign target value _ =>
    obtain ⟨⟨known, types⟩, agree⟩ := List.forall_mem_cons.mp agree
    have expected := targetType_moved (n := g.distance k) (r := target) known types
    rw [Site.target, (at'.child 0).moved] at expected
    refine exists_and_map expected fun t _ => ?_
    exact exists_and_map (value.type_shift (at'.child 2) agree) fun given _ => by
      rw [ValueType.moved_compatible]
  | .assignIndex target index value _ =>
    obtain ⟨⟨known, types⟩, agree⟩ := List.forall_mem_cons.mp agree
    obtain ⟨agree₁, agree₂⟩ := List.forall_mem_append.mp agree
    have type := targetType_moved (n := g.distance k) (r := target) known types
    rw [Site.target, (at'.child 0).moved] at type
    refine exists_and_map type fun t _ => ?_
    refine exists_and_map (index.type_shift (at'.child 1) agree₁) fun i _ => ?_
    exact exists_and_map (value.type_shift (at'.child 2) agree₂) fun given _ => by
      rw [ValueType.moved_isBase, storable_moved]
  | .call method args _ =>
    obtain ⟨⟨known, types⟩, agree⟩ := List.forall_mem_cons.mp agree
    rw [Site.target, (at'.child 0).moved] at known
    simp only [Stmt.shift, Stmt.WellTyped, Site.target, known]
    cases found : ctx.bound (s.child 0) with
    | none => simp
    | some d =>
      simp only [Option.map_some, Option.some.injEq, exists_eq_left']
      rw [Expr.argTypes_shift at' 0 args agree]
      refine exists_and_map rfl fun given _ => ?_
      rw [callType_moved (types d found), Option.isSome_map]
  | .ret none _ =>
    show ctx'.result = .base .void ↔ ctx.result = .base .void
    rw [result]
    exact (ValueType.moved_injective g).eq_iff (b := .base .void)
  | .ret (some value) _ => exact Stmt.returnable_shift result at' value agree
  | .ifThen cond body _ | .loop cond body _ =>
    obtain ⟨agree₁, agree₂⟩ := List.forall_mem_append.mp agree
    exact and_congr (Stmt.conditional_shift (at'.child 0) cond agree₁)
      (Stmt.wellTyped_shift result (at'.child 1) body (List.forall_mem_cons.mp agree₂).2)
  | .ifElse cond body other _ =>
    obtain ⟨agree₁, agree₂⟩ := List.forall_mem_append.mp agree
    obtain ⟨agree₂, agree₃⟩ := List.forall_mem_append.mp (List.forall_mem_cons.mp agree₂).2
    exact and_congr (Stmt.conditional_shift (at'.child 0) cond agree₁)
      (and_congr (Stmt.wellTyped_shift result (at'.child 1) body agree₂)
        (Stmt.wellTyped_shift result (at'.child 2) other (List.forall_mem_cons.mp agree₃).2))

theorem Stmt.allWellTyped_shift (result : ctx'.result = ctx.result.moved g)
    {names : Resolving.Context} {locals : Scope} {sites sites' : Nat → Site}
    (at' : ∀ i, g.Moves k (sites i) (sites' i)) (i : Nat) (stmts : List Stmt)
    (agree : ∀ u ∈ Stmt.usesFrom names locals sites i stmts,
      u.Agrees g (g.distance k) ctx.bound ctx'.bound) :
    Stmt.AllWellTyped ctx' sites' i (Stmt.shiftAll (g.distance k) stmts) ↔
      Stmt.AllWellTyped ctx sites i stmts := by
  match stmts with
  | [] => exact Iff.rfl
  | stmt :: rest =>
    obtain ⟨agree₁, agree₂⟩ := List.forall_mem_append.mp agree
    exact and_congr (Stmt.wellTyped_shift result (at' i) stmt agree₁)
      (Stmt.allWellTyped_shift result at' (i + 1) rest agree₂)

end

/-- The body of a moved method is well typed exactly if that of the method is. -/
theorem MethodDecl.wellTyped_shift {before after : Site → Option Decl} {cls : ClassRef}
    {s s' : Site} (at' : g.Moves k s s') (m : MethodDecl)
    (agree : ∀ u ∈ m.uses cls s, u.Agrees g (g.distance k) before after) :
    (m.shift (g.distance k)).WellTyped after s' ↔ m.WellTyped before s := by
  obtain ⟨view, agree⟩ := List.forall_mem_cons.mp agree
  have result : (m.head.result.shift (g.distance k)).view after (s.type.moved g) =
    (m.head.result.view before s.type).moved g := view
  rw [Site.type, (at'.child 0).moved] at result
  unfold WellTyped
  refine Stmt.allWellTyped_shift ?_ (fun i => at'.item 2 i) 0 m.body
    (List.forall_mem_append.mp agree).2
  exact result

end Statements

end JamCompiler

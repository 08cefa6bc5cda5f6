import JamCompiler.Proofs.Emission.Items

/-!
# When there is code

Well-typed expressions and statements have code, unless they instantiate a class that has no layout.
`Builds` states this of a step of emission, with the condition under which there is code. Of
references it is taken here as given, as `Use.Ready`, that there is code for them where they are
used as their types allow.
-/

namespace JamCompiler

open Machine Typing

mutual

/-- The types that are instantiated in an expression. -/
def Expr.news : Expr → List TypeExpr
  | .int .. | .bool .. | .null .. | .ref .. | .unknown .. => []
  | .unary _ operand _ => operand.news
  | .binary _ left right _ => left.news ++ right.news
  | .index _ i _ => i.news
  | .call _ args _ => Expr.argNews args
  | .newObject type _ => [type]
  | .newArray _ size _ => size.news

def Expr.argNews : List Expr → List TypeExpr
  | [] => []
  | e :: rest => e.news ++ Expr.argNews rest

end

mutual

def Stmt.news : Stmt → List TypeExpr
  | .block stmts _ => Stmt.allNews stmts
  | .declare _ init _ => init.news
  | .assign _ value _ => value.news
  | .assignIndex _ index value _ => index.news ++ value.news
  | .call _ args _ => Expr.argNews args
  | .ret none _ | .unknown .. => []
  | .ret (some value) _ => value.news
  | .ifThen cond body _ => cond.news ++ body.news
  | .ifElse cond body other _ => cond.news ++ (body.news ++ other.news)
  | .loop cond body _ => body.news ++ cond.news

def Stmt.allNews : List Stmt → List TypeExpr
  | [] => []
  | s :: rest => s.news ++ Stmt.allNews rest

end

/-- Whether a type names a class that is not predefined. -/
def TypeExpr.Instantiable : TypeExpr → Prop
  | named name _ => name.spelling ∉ Predefined.classes.map ClassRef.name
  | _ => False

instance TypeExpr.Instantiable.decidable : DecidablePred TypeExpr.Instantiable
  | named name _ => inferInstanceAs (Decidable (name.spelling ∉ _))
  | base .. | array .. | unknown .. => isFalse id

/-- Whether all of some types can be instantiated. -/
abbrev AllInstantiable (types : List TypeExpr) : Prop := ∀ t ∈ types, t.Instantiable

namespace Emission

/-- There is code exactly if a condition holds, and otherwise a class cannot be instantiated. -/
structure Builds {α : Type} (x : Emitted α) (cond : Prop) : Prop where
  ok : cond → ∃ a, x = .ok a
  fails : ¬ cond → ∃ cls pos, x = .error (.fault (.cannotInstantiate cls) pos)

namespace Builds

variable {α β : Type} {x : Emitted α} {c d : Prop}

theorem made (a : α) : Builds (.ok a) True := ⟨fun _ => ⟨a, rfl⟩, fun h => absurd trivial h⟩

theorem of_exists (h : ∃ a, x = .ok a) : Builds x True := ⟨fun _ => h, fun h => absurd trivial h⟩

theorem iff (h : Builds x c) (same : c ↔ d) : Builds x d :=
  ⟨fun hd => h.ok (same.mpr hd), fun hd => h.fails fun hc => hd (same.mp hc)⟩

theorem bind {f : α → Emitted β} (h : Builds x c) (next : ∀ a, x = .ok a → Builds (f a) d) :
    Builds (x >>= f) (c ∧ d) := by
  by_cases hc : c
  · obtain ⟨a, rfl⟩ := h.ok hc
    have later := next a rfl
    exact ⟨fun both => later.ok both.2, fun not => later.fails fun hd => not ⟨hc, hd⟩⟩
  · obtain ⟨cls, pos, rfl⟩ := h.fails hc
    exact ⟨fun both => absurd both.1 hc, fun _ => ⟨cls, pos, rfl⟩⟩

/-- After a step that there is code for anyway. -/
theorem after {f : α → Emitted β} (h : ∃ a, x = .ok a) (next : ∀ a, x = .ok a → Builds (f a) d) :
    Builds (x >>= f) d := by
  obtain ⟨a, rfl⟩ := h
  exact next a rfl

/-- Before a step that always gives code. -/
theorem before {f : α → Emitted β} (h : Builds x c) (next : ∀ a, x = .ok a → ∃ b, f a = .ok b) :
    Builds (x >>= f) c :=
  (h.bind fun a made => of_exists (next a made)).iff (and_iff_left trivial)

theorem map {f : α → β} (h : Builds x c) : Builds (x.map f) c := by
  constructor
  · intro hc
    obtain ⟨a, rfl⟩ := h.ok hc
    exact ⟨f a, rfl⟩
  · intro hc
    obtain ⟨cls, pos, rfl⟩ := h.fails hc
    exact ⟨cls, pos, rfl⟩

end Builds

end Emission

open Emission

/-- Whether there is code for what is used: for a reference where it has the type of a value or of a
variable, for the method of a call with its receiver, and for an instance if a type names a class
that is not predefined. -/
def Use.Ready (env : Env) : Use → Prop
  | type site t => ∀ pos, Builds (emitNew env site t pos) t.Instantiable
  | ref _ _ site r =>
    (∀ type, valueType? env.bound site r = some type → ∃ code, emitRef env site r = .ok code) ∧
      ∀ type, targetType? env.bound site r = some type →
        ∀ value cond, Builds value cond → Builds (storeTree env site r value) cond
  | callee _ _ site r => ∀ home head, env.bound site = some (.method home head) → ∀ args,
      ∃ t, invocationTree env site r (home, head) head.params.length args = .ok t
  | _ => True

section Values

variable {env : Env} {names : Resolving.Context} {locals : Scope}

theorem Use.Ready.value {site : Site} {r : Reference} (h : (Use.ref names locals site r).Ready env)
    (typed : (valueType? env.bound site r).isSome) : ∃ code, emitRef env site r = .ok code := by
  obtain ⟨type, typed⟩ := Option.isSome_iff_exists.mp typed
  exact h.1 type typed

theorem exists_unaryPrim {op : UnaryOp} {given : ValueType} (h : (unaryType? op given).isSome) :
    ∃ p, unaryPrim? op = some p := by
  cases op with
  | neg | not => exact ⟨_, rfl⟩
  | other text => cases h

theorem exists_binaryPrim {op : BinaryOp} {left right : ValueType}
    (h : (binaryType? op left right).isSome) : ∃ p, binaryPrim? op = some p := by
  cases op with
  | other text => cases h
  | or | and | eq | ne | lt | le | gt | ge | add | sub | mul | div => exact ⟨_, rfl⟩

/-- A call has as many arguments as the method it calls has parameters. -/
theorem exists_method_of_callType {d : Decl} {types : List ValueType}
    (h : (callType? env.bound d types).isSome) :
    ∃ home head, d = .method home head ∧ types.length = head.params.length := by
  cases d with
  | method home head =>
    rw [callType?] at h
    split at h
    · rename_i fits
      exact ⟨home, head, rfl, fits.1⟩
    · cases h
  | cls | field | param | var => cases h

theorem length_argTypes {call : Site} {k : Nat} {args : List Expr} {types : List ValueType}
    (h : Expr.argTypes? env.bound call k args = some types) : types.length = args.length := by
  induction args generalizing k types with
  | nil =>
    cases h
    rfl
  | cons e rest ih =>
    obtain ⟨type, -, h⟩ := Option.bind_eq_some_iff.mp h
    obtain ⟨later, inner, rfl⟩ := Option.map_eq_some_iff.mp h
    rw [List.length_cons, List.length_cons, ih inner]

/-- Printing takes all its arguments: there is one. -/
theorem argsTaken_eq {home : Home} {head : MethodHead} {given : Nat}
    (h : given = head.params.length) : argsTaken (home, head) given = given := by
  unfold argsTaken
  split
  · rename_i println
    have same := isPrintln_iff.mp println
    cases same
    subst h
    rfl
  · rfl

mutual

/-- A well-typed expression has code if all it instantiates can be. -/
theorem builds_tree {site : Site} (e : Expr) (ready : ∀ u ∈ e.uses names locals site, u.Ready env)
    (typed : (e.type? env.bound site).isSome) :
    Builds (e.tree env site) (AllInstantiable e.news) := by
  have none {x : Emitted Tree} (h : ∃ t, x = .ok t) : Builds x (AllInstantiable []) :=
    (Builds.of_exists h).iff (iff_of_true trivial nofun)
  obtain ⟨type, typed⟩ := Option.isSome_iff_exists.mp typed
  match e with
  | .int .. | .bool .. | .null .. => exact .map (none ⟨_, rfl⟩)
  | .unknown .. => cases typed
  | .unary op operand pos =>
    obtain ⟨given, inner, outer⟩ := Option.bind_eq_some_iff.mp typed
    obtain ⟨p, prim⟩ := exists_unaryPrim (Option.isSome_of_mem outer)
    simp only [Expr.tree, prim]
    exact .map ((builds_tree operand ready (Option.isSome_of_mem inner)).before fun _ _ => ⟨_, rfl⟩)
  | .binary op left right pos =>
    obtain ⟨l, first, typed⟩ := Option.bind_eq_some_iff.mp typed
    obtain ⟨r, second, typed⟩ := Option.bind_eq_some_iff.mp typed
    obtain ⟨p, prim⟩ := exists_binaryPrim (Option.isSome_of_mem typed)
    have ⟨inLeft, inRight⟩ := List.forall_mem_append.mp ready
    simp only [Expr.tree, prim]
    refine .map (((builds_tree left inLeft (Option.isSome_of_mem first)).bind fun _ _ =>
      (builds_tree right inRight (Option.isSome_of_mem second)).before fun _ _ => ⟨_, rfl⟩).iff ?_)
    exact List.forall_mem_append.symm
  | .ref r pos =>
    obtain ⟨code, made⟩ := (List.forall_mem_singleton.mp ready).value (Option.isSome_of_mem typed)
    exact .map (none ⟨_, by rw [made]; rfl⟩)
  | .index r i pos =>
    obtain ⟨array, whole, typed⟩ := Option.bind_eq_some_iff.mp typed
    obtain ⟨given, inner, -⟩ := Option.bind_eq_some_iff.mp typed
    have ⟨here, inIndex⟩ := List.forall_mem_cons.mp ready
    exact .map (.after (here.value (Option.isSome_of_mem whole)) fun _ _ =>
      (builds_tree i inIndex (Option.isSome_of_mem inner)).before fun _ _ => ⟨_, rfl⟩)
  | .call r args pos =>
    obtain ⟨d, bound, typed⟩ := Option.bind_eq_some_iff.mp typed
    obtain ⟨types, inner, typed⟩ := Option.bind_eq_some_iff.mp typed
    have ⟨here, inArgs⟩ := List.forall_mem_cons.mp ready
    obtain ⟨home, head, rfl, count⟩ := exists_method_of_callType (Option.isSome_of_mem typed)
    rw [length_argTypes inner] at count
    refine .map (.after ⟨(home, head), by rw [callee, bound]⟩ fun method known => ?_)
    rw [callee, bound] at known
    cases known
    rw [argsTaken_eq count]
    refine (builds_argTrees args inArgs (Option.isSome_of_mem inner)).before fun given _ => ?_
    rw [count]
    exact here home head bound given
  | .newObject type pos =>
    have here := List.forall_mem_singleton.mp ready
    exact .map (((here pos).before fun _ _ => ⟨_, rfl⟩).iff List.forall_mem_singleton.symm)
  | .newArray element size pos =>
    obtain ⟨given, inner, -⟩ := Option.bind_eq_some_iff.mp typed
    have ⟨_, inSize⟩ := List.forall_mem_cons.mp ready
    exact .map ((builds_tree size inSize (Option.isSome_of_mem inner)).before fun _ _ => ⟨_, rfl⟩)

theorem builds_argTrees {call : Site} {k : Nat} (args : List Expr)
    (ready : ∀ u ∈ Expr.argUses names locals call k args, u.Ready env)
    (typed : (Expr.argTypes? env.bound call k args).isSome) :
    Builds (Expr.argTrees env call k args.length args) (AllInstantiable (Expr.argNews args)) := by
  match args with
  | [] => exact (Builds.made _).iff (iff_of_true trivial nofun)
  | e :: rest =>
    obtain ⟨types, typed⟩ := Option.isSome_iff_exists.mp typed
    obtain ⟨type, first, typed⟩ := Option.bind_eq_some_iff.mp typed
    obtain ⟨later, typed, -⟩ := Option.map_eq_some_iff.mp typed
    have ⟨here, inRest⟩ := List.forall_mem_append.mp ready
    refine ((builds_tree e here (Option.isSome_of_mem first)).bind fun _ _ =>
      (builds_argTrees rest inRest (Option.isSome_of_mem typed)).before fun _ _ => ⟨_, rfl⟩).iff ?_
    exact List.forall_mem_append.symm

end

variable {site : Site}

theorem builds_elementStore {target : Reference} {index value : Expr}
    (here : (Use.ref names locals site.target target).Ready env)
    (inIndex : ∀ u ∈ index.uses names locals site.index, u.Ready env)
    (inValue : ∀ u ∈ value.uses names locals site.value, u.Ready env)
    (typed : (valueType? env.bound site.target target).isSome)
    (typedIndex : (index.type? env.bound site.index).isSome)
    (typedValue : (value.type? env.bound site.value).isSome) :
    Builds (elementStoreTree env site target index value)
      (AllInstantiable (index.news ++ value.news)) := by
  refine .after (here.value typed) fun _ _ => ?_
  refine ((builds_tree index inIndex typedIndex).bind fun _ _ =>
    (builds_tree value inValue typedValue).before fun _ _ => ⟨_, rfl⟩).iff ?_
  exact List.forall_mem_append.symm

theorem builds_callTree {r : Reference} {args : List Expr} {pos : Nat} {d : Decl}
    {types : List ValueType} (here : (Use.callee names locals site.target r).Ready env)
    (inArgs : ∀ u ∈ Expr.argUses names locals site 0 args, u.Ready env)
    (bound : env.bound site.target = some d)
    (typedArgs : Expr.argTypes? env.bound site 0 args = some types)
    (typed : (callType? env.bound d types).isSome) :
    Builds (callTree env site r args pos) (AllInstantiable (Expr.argNews args)) := by
  obtain ⟨home, head, rfl, count⟩ := exists_method_of_callType typed
  rw [length_argTypes typedArgs] at count
  refine .after ⟨(home, head), by rw [callee, bound]⟩ fun method known => ?_
  rw [callee, bound] at known
  cases known
  rw [argsTaken_eq count]
  refine (builds_argTrees args inArgs (Option.isSome_of_mem typedArgs)).before fun given _ => ?_
  rw [count]
  obtain ⟨t, made⟩ := here home head bound given
  exact ⟨_, by rw [made]; rfl⟩

end Values

end JamCompiler

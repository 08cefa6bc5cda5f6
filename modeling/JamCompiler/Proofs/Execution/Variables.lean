import JamCompiler.Proofs.Execution.Statements
import JamCompiler.Proofs.Generating

/-!
# Variables of methods

In a program that has passed all checks, the variables in the body of a method are its parameters
and locals, the fields of its class and static fields, and each of them lives at a place of its own.
So a body that is made of numbers, truth values and such variables can be run as it is read: `Ready`
follows from what resolution, typing and placement have established.
-/

namespace JamCompiler

open Machine Emission Typing Generation

/-- The fields that the methods of a class may use by their names, and static fields of other
classes. -/
def Program.HasField (p : Program) (k : Nat) (d : Decl) : Prop :=
  ∃ (j : Nat) (c : ClassDecl) (i : Nat) (f : FieldDecl), p.classes[j]? = some c ∧
    c.fields[i]? = some f ∧ d = .field (.user ((Site.classAt j).field i)) f ∧ (f.isStatic ∨ j = k)

/-- These fields one after the other. -/
def Program.fieldsInForce (p : Program) (k : Nat) : List Decl :=
  p.sitedClasses.flatMap fun c =>
    (c.2.fieldDecls c.1).filter fun d => d.isStatic || c.1 = .classAt k

theorem Program.mem_fieldsInForce {p : Program} {k : Nat} {d : Decl} :
    d ∈ p.fieldsInForce k ↔ p.HasField k d := by
  simp only [fieldsInForce, ClassDecl.fieldDecls, List.mem_flatMap, List.mem_filter,
    List.mem_mapIdx, mem_sitedClasses, Bool.or_eq_true, decide_eq_true_eq]
  constructor
  · rintro ⟨⟨site, c⟩, ⟨j, hj, rfl⟩, ⟨i, hi, rfl⟩, own⟩
    exact ⟨j, c, i, c.fields[i], hj, List.getElem?_eq_getElem hi, rfl,
      own.imp_right fun same => by simpa [Site.classAt] using same⟩
  · rintro ⟨j, c, i, f, hj, hf, rfl, own⟩
    obtain ⟨hi, rfl⟩ := List.getElem?_eq_some_iff.mp hf
    exact ⟨(.classAt j, c), ⟨j, hj, rfl⟩, ⟨i, hi, rfl⟩, own.imp_right fun same => by rw [same]⟩

section Variables

variable {p : Program} {k : Nat} {c : ClassDecl} {bound : Site → Option Decl}
variable {names : Resolving.Context} {locals : Scope} {site : Site} {d : Decl}

/-- What is called by its name in a class, and is no method, is a field of the class. -/
theorem Program.Collectable.hasField (ok : p.Collectable) (hk : p.classes[k]? = some c)
    {name : String} (h : (p.globals k).members c.name name = some d) (data : d.isMethod = false) :
    p.HasField k d := by
  obtain ⟨member, -⟩ := (ok.lookup_member hk).mp h
  rcases ClassDecl.mem_members.mp member with ⟨i, f, hf, rfl⟩ | ⟨i, m, -, rfl⟩
  · exact ⟨k, c, i, f, hk, hf, rfl, .inr rfl⟩
  · cases data

/-- What is called a static member of some class is a static field of the program. -/
theorem Program.hasField_of_static {site : Site} {f : FieldDecl} {cls name : String}
    (h : (p.globals k).members cls name = some (.field (.user site) f)) (static : f.isStatic) :
    p.HasField k (.field (.user site) f) := by
  rcases member_cases (mem_of_lookup h) with ⟨-, same | same⟩ | ⟨j, b, hj, member, -⟩
  · cases same
  · cases same
  · rcases ClassDecl.mem_members.mp member with ⟨i, f', hf, same⟩ | ⟨i, m, -, same⟩
    · cases same
      exact ⟨j, b, i, f, hj, hf, rfl, .inl static⟩
    · cases same

/-- Whether a variable is in force where a reference stands: a local or parameter, but not the one
that is being initialized, or a field. -/
def Resolving.Context.Sees (names : Resolving.Context) (F : Decl → Prop) (locals : Scope)
    (d : Decl) : Prop :=
  names.initializing ≠ some d ∧ (∃ q ∈ locals, q.2 = d) ∨ F d

/-- A variable that a name means is in force. -/
theorem sees_of_name (ok : p.Collectable) (hk : p.classes[k]? = some c)
    (cls : names.cls = c.ref (.classAt k)) {name : String}
    (named : (p.globals k).nameDecl? names locals name = some d) (value : d.IsValue) :
    names.Sees (p.HasField k) locals d := by
  have looked := Globals.lookup_of_nameDecl named
  rw [Globals.lookup, Option.or_eq_some_iff, Option.or_eq_some_iff, cls] at looked
  rcases looked with local' | ⟨-, member | ⟨-, class'⟩⟩
  · exact .inl ⟨Globals.initializing_ne_of_nameDecl named, _, mem_of_lookup local', rfl⟩
  · exact .inr (ok.hasField hk member value.2.1)
  · obtain ⟨b, -, same⟩ := Option.map_eq_some_iff.mp class'
    exact absurd same.symm (value.1 b)

/-- The variable that a reference denotes is in force. -/
theorem sees_of_variable (ok : p.Collectable) (hk : p.classes[k]? = some c)
    (cls : names.cls = c.ref (.classAt k)) {r : Reference}
    (means : (Use.ref names locals site r).Bound (p.globals k) bound)
    (h : r.variableAt? bound site = some d) : names.Sees (p.HasField k) locals d := by
  obtain ⟨found, value, -⟩ := bound_of_variable h
  cases r with
  | this | unknown => cases h
  | ident name pos =>
    have denoted := means _ (List.mem_cons_self) site List.mem_cons_self
    rw [found] at denoted
    obtain ⟨e, named, same⟩ := Option.map_eq_some_iff.mp (Option.join_eq_some_iff.mp denoted.symm)
    cases same
    exact sees_of_name ok hk cls named value
  | qualified qualifier name pos =>
    have denoted := means _ (List.mem_cons_self) site List.mem_cons_self
    rw [found] at denoted
    obtain ⟨base, meaning, after⟩ :=
      Program.member_of_denote (Option.join_eq_some_iff.mp denoted.symm)
    rw [Reference.variableAt?, found, Option.bind_some] at h
    split at h
    · split at h
      · rename_i inForce
        cases h
        rcases Bool.or_eq_true_iff.mp inForce with this | static
        · cases qualifier with
          | ident | qualified | unknown => cases this
          | this pos' =>
            simp only [Reference.denote?] at meaning
            split at meaning
            · cases meaning
            · cases meaning
              obtain ⟨e, member, same⟩ := Option.map_eq_some_iff.mp after
              cases same
              rw [cls] at member
              exact .inr (ok.hasField hk (Globals.members_of_memberOf member) rfl)
        · rcases Globals.member_of_memberAfter after with ⟨b, member⟩ | length
          · exact .inr (Program.hasField_of_static (Globals.members_of_memberOf member) static)
          · cases length
      · cases h
    · cases h

end Variables

theorem ValueType.exists_kind {type : ValueType} (h : type.isScalar) :
    ∃ k : Kind, type = k.type := by
  unfold ValueType.isScalar at h
  split at h
  · exact ⟨.int, rfl⟩
  · exact ⟨.bool, rfl⟩
  · cases h

theorem Kind.eq_of_compatible {k k' : Kind} (h : k.type.compatible k'.type) : k = k' := by
  cases k <;> cases k' <;> first | rfl | cases h

theorem Kind.eq_bool {k : Kind} (h : k.type.isBase .boolean) : k = .bool := by
  cases k with
  | int => cases h
  | bool => rfl

/-- The type of a reference to a variable is that of the variable. -/
theorem Typing.type_of_variable {bound : Site → Option Decl} {site : Site} {r : Reference}
    {d : Decl} {given : ValueType} (denotes : r.variableAt? bound site = some d)
    (typed : valueType? bound site r = some given) : given = d.type bound := by
  obtain ⟨found, value, -⟩ := bound_of_variable denotes
  rw [valueType?, found, Option.bind_some] at typed
  cases r with
  | this | unknown => cases denotes
  | ident | qualified =>
    cases d with
    | cls b => exact absurd rfl (value.1 b)
    | method => cases value.2.1
    | field | param | var =>
      dsimp only at typed
      rw [if_neg value.2.2] at typed
      exact (Option.some.inj typed).symm

/-- Operators that are applied to numbers and truth values give numbers and truth values. -/
theorem BinaryOp.takes_of_type {op : BinaryOp} {k k' : Kind} {given : ValueType}
    (h : binaryType? op k.type k'.type = some given) :
    k' = k ∧ ∃ k'' : Kind, given = k''.type ∧ op.Takes k k'' := by
  cases op with
  | other text => cases h
  | add | sub | mul | div =>
    cases k <;> cases k' <;> cases h
    exact ⟨rfl, .int, rfl, rfl, rfl⟩
  | lt | le | gt | ge =>
    cases k <;> cases k' <;> cases h
    exact ⟨rfl, .bool, rfl, rfl, rfl⟩
  | and | or =>
    cases k <;> cases k' <;> cases h
    exact ⟨rfl, .bool, rfl, rfl, rfl⟩
  | eq | ne =>
    cases k <;> cases k' <;> cases h <;> exact ⟨rfl, .bool, rfl, rfl⟩

section Bodies

variable {p : Program} {k : Nat} {c : ClassDecl} {env : Env} {names : Resolving.Context}
variable {locals : Scope} {ctx : Typing.Context}

/-- What resolution has established of a use. -/
def Use.Done (p : Program) (k : Nat) (bound : Site → Option Decl) (u : Use) : Prop :=
  u.Ok (p.globals k) ∧ u.Bound (p.globals k) bound

/-- An expression that is well typed and made of numbers, truth values and variables has values of
its kind. -/
theorem Expr.has_of_type (ok : p.Collectable) (hk : p.classes[k]? = some c)
    (cls : names.cls = c.ref (.classAt k)) {V : Decl → Prop}
    (sees : ∀ d, names.Sees (p.HasField k) locals d → V d) {bound : Site → Option Decl}
    {site : Site} {given : ValueType} (e : Expr) (scalar : e.isScalar bound site)
    (typed : e.type? bound site = some given)
    (uses : ∀ u ∈ e.uses names locals site, u.Done p k bound) :
    ∃ k' : Kind, given = k'.type ∧ e.Has bound V site k' := by
  match e with
  | .int n pos =>
    cases typed
    exact ⟨.int, rfl, .int⟩
  | .bool b pos =>
    cases typed
    exact ⟨.bool, rfl, .bool⟩
  | .unary op operand pos =>
    obtain ⟨inside, typedOperand, typed⟩ := Option.bind_eq_some_iff.mp typed
    obtain ⟨k', rfl, has⟩ := Expr.has_of_type ok hk cls sees operand scalar typedOperand uses
    cases op with
    | other text => cases typed
    | neg =>
      cases k' <;> cases typed
      exact ⟨.int, rfl, .neg has⟩
    | not =>
      cases k' <;> cases typed
      exact ⟨.bool, rfl, .not has⟩
  | .binary op left right pos =>
    obtain ⟨type, typedLeft, typed⟩ := Option.bind_eq_some_iff.mp typed
    obtain ⟨type', typedRight, typed⟩ := Option.bind_eq_some_iff.mp typed
    obtain ⟨scalarLeft, scalarRight⟩ := Bool.and_eq_true_iff.mp scalar
    have ⟨inLeft, inRight⟩ := List.forall_mem_append.mp uses
    obtain ⟨k', rfl, first⟩ := Expr.has_of_type ok hk cls sees left scalarLeft typedLeft inLeft
    obtain ⟨k'', rfl, second⟩ :=
      Expr.has_of_type ok hk cls sees right scalarRight typedRight inRight
    obtain ⟨rfl, result, same, takes⟩ := BinaryOp.takes_of_type typed
    exact ⟨result, same, .binary takes first second⟩
  | .ref r pos =>
    obtain ⟨d, denotes, scalar⟩ := (Option.any_eq_true _ _).mp scalar
    obtain ⟨k', type⟩ := ValueType.exists_kind scalar
    have means := (uses _ (List.mem_singleton_self _)).2
    exact ⟨k', (type_of_variable denotes typed).trans type,
      .ref denotes (sees d (sees_of_variable ok hk cls means denotes)) type⟩
  | .null _ | .index .. | .call .. | .newObject .. | .newArray .. | .unknown .. => cases scalar

/-- A statement that can be run declares a variable only if it is a declaration. -/
theorem Stmt.Ready.declares {F : Decl → Prop} {slot : Nat} {site : Site} {s : Stmt}
    (h : s.Ready env F locals slot site) : s.declares = s.isDeclaration.toNat := by
  match s with
  | .block .. | .declare .. | .assign .. | .ret .. => rfl
  | .ifThen cond body pos | .loop cond body pos =>
    have inner := Stmt.Ready.declares h.2.2
    rwa [h.2.1] at inner
  | .ifElse cond body other pos =>
    have inner := Stmt.Ready.declares h.2.1.2
    have inner' := Stmt.Ready.declares h.2.2.2
    rw [h.2.1.1] at inner
    rw [h.2.2.1] at inner'
    simp only [Stmt.declares, inner, inner']
    rfl
  | .assignIndex .. | .call .. | .unknown .. => exact h.elim

mutual

/-- So a statement of a program that has passed all checks can be run if it is made of numbers,
truth values and variables. -/
theorem Stmt.ready_of_typed (ok : p.Collectable) (hk : p.classes[k]? = some c)
    (cls : names.cls = c.ref (.classAt k)) {locals : Scope} {slot : Nat} {site : Site} (s : Stmt)
    (scalar : s.isScalar env.bound site) (typed : s.WellTyped ctx site)
    (same : ctx.bound = env.bound) (placed : s.Placed env.located slot site)
    (uses : ∀ u ∈ s.uses names locals site, u.Done p k env.bound) :
    s.Ready env (p.HasField k) locals slot site := by
  have sees : ∀ d, names.Sees (p.HasField k) locals d → Visible (p.HasField k) locals d :=
    fun d => Or.imp_left And.right
  have condition {cond : Expr} {site : Site} (scalar : cond.isScalar env.bound site)
      (typed : Conditional ctx site cond)
      (uses : ∀ u ∈ cond.uses names locals site, u.Done p k env.bound) :
      cond.Has env.bound (Visible (p.HasField k) locals) site .bool := by
    obtain ⟨given, typed, boolean⟩ := typed
    obtain ⟨k', rfl, has⟩ := cond.has_of_type ok hk cls sees scalar (same ▸ typed) uses
    rwa [Kind.eq_bool boolean] at has
  match s with
  | .block stmts pos => exact Stmt.allReady_of_typed ok hk cls stmts scalar typed same placed uses
  | .declare var init pos =>
    obtain ⟨given, typed, compatible⟩ := typed
    obtain ⟨scalarVar, scalarInit⟩ := Bool.and_eq_true_iff.mp scalar
    obtain ⟨k', type⟩ := ValueType.exists_kind scalarVar
    have inInit := (List.forall_mem_cons.mp (List.forall_mem_cons.mp uses).2).2
    have clsInit : Resolving.Context.cls { names with initializing := some (.var site.var var) } =
      c.ref (.classAt k) := cls
    have seesInit : ∀ d, Resolving.Context.Sees
        { names with initializing := some (.var site.var var) } (p.HasField k)
        ((var.name, .var site.var var) :: locals) d → Visible (p.HasField k) locals d := by
      rintro d (⟨other, q, hq, rfl⟩ | field)
      · rcases List.mem_cons.mp hq with rfl | hq
        · exact absurd rfl other
        · exact .inl ⟨q, hq, rfl⟩
      · exact .inr field
    obtain ⟨k'', rfl, has⟩ :=
      init.has_of_type ok hk clsInit seesInit scalarInit (same ▸ typed) inInit
    rw [same] at compatible
    have known : var.type.view env.bound site.var.type = k'.type := type
    rw [known] at compatible
    obtain rfl := Kind.eq_of_compatible compatible
    exact ⟨k', type, has, locationOf_eq rfl placed⟩
  | .assign target value pos =>
    obtain ⟨expected, typedTarget, given, typedValue, compatible⟩ := typed
    obtain ⟨scalarTarget, scalarValue⟩ := Bool.and_eq_true_iff.mp scalar
    obtain ⟨d, denotes, scalarTarget⟩ := (Option.any_eq_true _ _).mp scalarTarget
    obtain ⟨k', type⟩ := ValueType.exists_kind scalarTarget
    have ⟨here, inValue⟩ := List.forall_mem_cons.mp uses
    obtain ⟨k'', rfl, has⟩ :=
      value.has_of_type ok hk cls sees scalarValue (same ▸ typedValue) inValue
    have given := type_of_variable denotes (same ▸ valueType_of_targetType typedTarget)
    rw [given, type] at compatible
    obtain rfl := Kind.eq_of_compatible compatible
    exact ⟨d, k', denotes, sees d (sees_of_variable ok hk cls here.2 denotes), type, has⟩
  | .ret none pos => trivial
  | .ret (some value) pos =>
    obtain ⟨given, typed, -⟩ := typed
    obtain ⟨k', -, has⟩ := value.has_of_type ok hk cls sees scalar (same ▸ typed) uses
    exact ⟨k', has⟩
  | .ifThen cond body pos | .loop cond body pos =>
    obtain ⟨typedCond, typedBody⟩ := typed
    obtain ⟨scalarCond, scalarBody⟩ := Bool.and_eq_true_iff.mp scalar
    have ⟨inCond, inRest⟩ := List.forall_mem_append.mp uses
    have ⟨branch, inBody⟩ := List.forall_mem_cons.mp inRest
    exact ⟨condition scalarCond typedCond inCond, branch.1,
      Stmt.ready_of_typed ok hk cls body scalarBody typedBody same placed inBody⟩
  | .ifElse cond body other pos =>
    obtain ⟨typedCond, typedBody, typedOther⟩ := typed
    obtain ⟨scalarCond, scalarRest⟩ := Bool.and_eq_true_iff.mp scalar
    obtain ⟨scalarBody, scalarOther⟩ := Bool.and_eq_true_iff.mp scalarRest
    have ⟨inCond, inRest⟩ := List.forall_mem_append.mp uses
    have ⟨branch, inRest⟩ := List.forall_mem_cons.mp inRest
    have ⟨inBody, inRest⟩ := List.forall_mem_append.mp inRest
    have ⟨branch', inOther⟩ := List.forall_mem_cons.mp inRest
    have ready := Stmt.ready_of_typed ok hk cls body scalarBody typedBody same placed.1 inBody
    have placedOther := placed.2
    rw [ready.declares, show body.isDeclaration = false from branch.1] at placedOther
    exact ⟨condition scalarCond typedCond inCond, ⟨branch.1, ready⟩, branch'.1,
      Stmt.ready_of_typed ok hk cls other scalarOther typedOther same placedOther inOther⟩
  | .assignIndex .. | .call .. | .unknown .. => cases scalar

theorem Stmt.allReady_of_typed (ok : p.Collectable) (hk : p.classes[k]? = some c)
    (cls : names.cls = c.ref (.classAt k)) {locals : Scope} {slot : Nat} {sites : Nat → Site}
    {i : Nat} (stmts : List Stmt)
    (scalar : Stmt.allScalar env.bound sites i stmts) (typed : Stmt.AllWellTyped ctx sites i stmts)
    (same : ctx.bound = env.bound) (placed : Stmt.AllPlaced env.located slot sites i stmts)
    (uses : ∀ u ∈ Stmt.usesFrom names locals sites i stmts, u.Done p k env.bound) :
    Stmt.AllReady env (p.HasField k) locals slot sites i stmts := by
  match stmts with
  | [] => trivial
  | s :: rest =>
    obtain ⟨scalarFirst, scalarRest⟩ := Bool.and_eq_true_iff.mp scalar
    have ⟨inFirst, inRest⟩ := List.forall_mem_append.mp uses
    have ready := Stmt.ready_of_typed ok hk cls s scalarFirst typed.1 same placed.1 inFirst
    have placedRest := placed.2
    rw [ready.declares] at placedRest
    exact ⟨ready, Stmt.allReady_of_typed ok hk cls rest scalarRest typed.2 same placedRest inRest⟩

end

end Bodies

theorem exists_take_eq {α : Type} {l : List α} {i j : Nat} {a : α} (ha : l[i]? = some a)
    (lt : i < j) : ∃ rest, l.take j = l.take i ++ a :: rest := by
  obtain ⟨short, rfl⟩ := List.getElem?_eq_some_iff.mp ha
  obtain ⟨n, rfl⟩ := Nat.exists_eq_add_of_lt lt
  refine ⟨(l.drop (i + 1)).take n, ?_⟩
  rw [Nat.add_assoc, List.take_add, List.drop_eq_getElem_cons short, List.take_succ_cons]

theorem countP_take_lt {α : Type} {q : α → Bool} {l : List α} {i j : Nat} {a : α}
    (ha : l[i]? = some a) (holds : q a) (lt : i < j) :
    (l.take i).countP q < (l.take j).countP q := by
  obtain ⟨rest, split⟩ := exists_take_eq ha lt
  rw [split, List.countP_append, List.countP_cons_of_pos holds]
  omega

/-- A member of a list is found from the count of members like it before it. -/
theorem eq_of_countP_take_eq {α : Type} {q : α → Bool} {l : List α} {i j : Nat} {a b : α}
    (ha : l[i]? = some a) (hb : l[j]? = some b) (holds : q a) (holds' : q b)
    (same : (l.take i).countP q = (l.take j).countP q) : i = j := by
  rcases Nat.lt_trichotomy i j with lt | eq | lt
  · exact absurd same (Nat.ne_of_lt (countP_take_lt ha holds lt))
  · exact eq
  · exact absurd same.symm (Nat.ne_of_lt (countP_take_lt hb holds' lt))

/-- Static fields of later classes have higher numbers. -/
theorem statics_lt {classes : List ClassDecl} {j j' i n : Nat} {c : ClassDecl} {f : FieldDecl}
    (hj : classes[j]? = some c) (hf : c.fields[i]? = some f) (static : f.isStatic) (lt : j < j') :
    staticsOf (classes.take j) + staticFields (c.fields.take i) <
      staticsOf (classes.take j') + n := by
  obtain ⟨rest, split⟩ := exists_take_eq hj lt
  have before : staticsOf (classes.take j') =
      staticsOf (classes.take j) + (staticFields c.fields + staticsOf rest) := by
    rw [split, ← staticsOf_cons]
    simp [staticsOf]
  have here := countP_take_lt (q := (·.isStatic)) hf static (List.getElem?_eq_some_iff.mp hf).1
  rw [List.take_length] at here
  unfold staticFields at before ⊢
  omega

section Places

variable {p : Program} {k : Nat} {q : Placing} {bound : Site → Option Decl} {d d' : Decl}
variable {l : Location}

theorem Generation.FieldsPlaced.located_field (placed : FieldsPlaced 0 0 p.classes q) {j i : Nat}
    {c : ClassDecl} {f : FieldDecl} (hj : p.classes[j]? = some c) (hf : c.fields[i]? = some f) :
    locationOf (q.env bound) (.field (.user ((Site.classAt j).field i)) f) = .ok (f.location
      (staticsOf (p.classes.take j) + staticFields (c.fields.take i))
      (instanceFields (c.fields.take i))) := by
  have located := placed.located j c hj i f hf
  rw [Nat.zero_add, Nat.zero_add] at located
  exact locationOf_eq rfl located

/-- No two fields live at one place. -/
theorem Generation.FieldsPlaced.injective (placed : FieldsPlaced 0 0 p.classes q)
    (hd : p.HasField k d) (hd' : p.HasField k d') (there : locationOf (q.env bound) d = .ok l)
    (there' : locationOf (q.env bound) d' = .ok l) : d = d' := by
  obtain ⟨j, c, i, f, hj, hf, rfl, own⟩ := hd
  obtain ⟨j', c', i', f', hj', hf', rfl, own'⟩ := hd'
  cases (placed.located_field hj hf).symm.trans there
  have same := Except.ok.inj ((placed.located_field hj' hf').symm.trans there')
  have inClass (eq : j = j') (eq' : i = i') :
      Decl.field (.user ((Site.classAt j).field i)) f =
        .field (.user ((Site.classAt j').field i')) f' := by
    subst eq eq'
    cases hj.symm.trans hj'
    cases hf.symm.trans hf'
    rfl
  unfold FieldDecl.location at same
  cases static : f.isStatic <;> cases static' : f'.isStatic <;> simp [static, static'] at same
  · obtain rfl : j = k := own.resolve_left (by simp [static])
    obtain rfl : j' = j := own'.resolve_left (by simp [static'])
    cases hj.symm.trans hj'
    have count : (c.fields.take i).countP (!·.isStatic) = (c.fields.take i').countP (!·.isStatic) :=
      same.symm
    exact inClass rfl
      (eq_of_countP_take_eq hf hf' (by simp [static]) (by simp [static']) count)
  · rcases Nat.lt_trichotomy j j' with lt | rfl | lt
    · have less := statics_lt (n := staticFields (c'.fields.take i')) hj hf static lt
      omega
    · cases hj.symm.trans hj'
      refine inClass rfl (eq_of_countP_take_eq (q := (·.isStatic)) hf hf' static static' ?_)
      unfold staticFields at same
      omega
    · have less := statics_lt (n := staticFields (c.fields.take i)) hj' hf' static' lt
      omega

/-- A field has its place, which is not in a frame. -/
theorem Program.HasField.placed (h : p.HasField k d) (placed : FieldsPlaced 0 0 p.classes q) :
    ∃ l, locationOf (q.env bound) d = .ok l ∧ l.Fits d ∧ ∀ n, l ≠ .frame n := by
  obtain ⟨j, c, i, f, hj, hf, rfl, -⟩ := h
  refine ⟨_, placed.located_field hj hf, ?_⟩
  unfold FieldDecl.location
  split
  · rename_i static
    exact ⟨⟨rfl, static⟩, nofun⟩
  · rename_i inObject
    exact ⟨⟨rfl, inObject⟩, nofun⟩

section Methods

variable {site : Site} {m : MethodDecl}

/-- What is in force when a method is entered: its parameters, and fields. -/
theorem visible_scope (h : Visible (p.HasField k) (m.scope site) d) :
    (∃ i prm, m.head.params[i]? = some prm ∧ d = .param (site.param i) prm) ∨ p.HasField k d := by
  refine h.imp_left ?_
  rintro ⟨param, hq, rfl⟩
  rcases MethodDecl.mem_paramScope hq with nothing | ⟨i, prm, found, rfl⟩
  · cases nothing
  · rw [Nat.zero_add]
    exact ⟨i, prm, found, rfl⟩

/-- Everything in force when a method is entered lives at a place of its own. -/
theorem frames_of_placed (placed : FieldsPlaced 0 0 p.classes q)
    (params : ∀ (i : Nat) (prm : ParamDecl), m.head.params[i]? = some prm →
      locationOf (q.env bound) (.param (site.param i) prm) =
        .ok (.frame (i - m.head.params.length))) :
    Frames (q.env bound) (Visible (p.HasField k) (m.scope site))
      m.head.params.length linkageSize where
  bounds d hd n there := by
    rcases visible_scope hd with ⟨i, prm, found, rfl⟩ | field
    · have short := (List.getElem?_eq_some_iff.mp found).1
      cases (params i prm found).symm.trans there
      omega
    · obtain ⟨l, located, -, notFrame⟩ := field.placed placed
      cases located.symm.trans there
      exact absurd rfl (notFrame n)
  injective d d' l hd hd' there there' := by
    have apart {i : Nat} {prm : ParamDecl} {e : Decl} (found : m.head.params[i]? = some prm)
        (field : p.HasField k e)
        (inFrame : locationOf (q.env bound) (.param (site.param i) prm) = .ok l)
        (notInFrame : locationOf (q.env bound) e = .ok l) : False := by
      cases (params i prm found).symm.trans inFrame
      obtain ⟨l', located, -, notFrame⟩ := field.placed placed
      cases located.symm.trans notInFrame
      exact notFrame _ rfl
    rcases visible_scope hd with ⟨i, prm, found, rfl⟩ | field
    · rcases visible_scope hd' with ⟨i', prm', found', rfl⟩ | field'
      · cases (params i prm found).symm.trans there
        have same := (params i' prm' found').symm.trans there'
        simp only [Except.ok.injEq, Location.frame.injEq] at same
        obtain rfl : i' = i := by omega
        cases found.symm.trans found'
        rfl
      · exact (apart found field' there there').elim
    · rcases visible_scope hd' with ⟨i', prm', found', rfl⟩ | field'
      · exact (apart found' field there' there).elim
      · exact placed.injective field field' there there'

end Methods

end Places

end JamCompiler

import JamCompiler.Proofs.Binding

/-!
# Lexical scoping

What names mean according to an environment that is handed down through the tree, without tables,
scopes that are opened and closed, or any state. A block hands its statements the environment it
was given, each declaration adds to what the later statements of its block get, and nothing comes
back out. The initializer of a variable is read in the environment before its declaration.

A resolution without errors binds names as this reading says.
-/

namespace JamCompiler

/-- What names mean at some place: local variables and parameters, beyond them the members of the
class around the place, and beyond them classes. -/
structure Environment where
  locals : String → Option Decl
  member : String → Option Decl
  cls : String → Option ClassRef

namespace Environment

def meaning (env : Environment) (name : String) : Option Decl :=
  (env.locals name).or ((env.member name).or ((env.cls name).map .cls))

/-- The environment after a declaration in it. -/
def declare (env : Environment) (d : Decl) : Environment :=
  { env with locals := fun name => if name = d.name then some d else env.locals name }

/-- The environment after the parameters of a method from the `k`th on. -/
def withParams (env : Environment) (method : Site) (k : Nat) : List ParamDecl → Environment
  | [] => env
  | p :: rest => (env.declare (.param (method.param k) p)).withParams method (k + 1) rest

end Environment

/-- What reading a body comes across: a name that stands by itself as a reference, the declaration
of a local variable, or a branch of a statement. -/
inductive Occurrence
  | name (env : Environment) (site : Site) (id : String)
  | declaration (env : Environment) (var : VarDecl)
  | branch (body : Stmt)

/-- Whether names are bound to what they mean, variables hide no other, and branches are no
declarations. -/
def Occurrence.Holds (bound : Site → Option Decl) : Occurrence → Prop
  | .name env site id =>
    ∃ d, env.meaning id = some d ∧ bound site = some d ∧ bound site.name = some d
  | .declaration env var => env.locals var.name = none
  | .branch body => body.isDeclaration = false

def Reference.occurrences (env : Environment) (site : Site) : Reference → List Occurrence
  | this _ | unknown .. => []
  | ident name _ => [.name env site name.spelling]
  | qualified qualifier _ _ => qualifier.occurrences env site.qualifier

mutual

def Expr.occurrences (env : Environment) (site : Site) : Expr → List Occurrence
  | .int .. | .bool .. | .null .. | .newObject .. | .unknown .. => []
  | .unary _ operand _ => operand.occurrences env site.operand
  | .binary _ left right _ => left.occurrences env site.left ++ right.occurrences env site.right
  | .ref r _ => r.occurrences env site.target
  | .index r i _ => r.occurrences env site.target ++ i.occurrences env site.index
  | .call method args _ =>
    method.occurrences env site.target ++ Expr.argOccurrences env site 0 args
  | .newArray _ size _ => size.occurrences env site.size

/-- The arguments of a call from the `k`th on. -/
def Expr.argOccurrences (env : Environment) (call : Site) (k : Nat) : List Expr → List Occurrence
  | [] => []
  | e :: rest => e.occurrences env (call.arg k) ++ Expr.argOccurrences env call (k + 1) rest

end

namespace Stmt

/-- The environment that the statement after this one gets. -/
def environmentAfter (env : Environment) (site : Site) : Stmt → Environment
  | declare var _ _ => env.declare (.var site.var var)
  | _ => env

mutual

def occurrences (env : Environment) (site : Site) : Stmt → List Occurrence
  | block stmts _ => occurrencesFrom env site.stmt 0 stmts
  | declare var init _ => .declaration env var :: init.occurrences env site.init
  | assign target value _ =>
    target.occurrences env site.target ++ value.occurrences env site.value
  | assignIndex target index value _ => target.occurrences env site.target ++
      (index.occurrences env site.index ++ value.occurrences env site.value)
  | call method args _ =>
    method.occurrences env site.target ++ Expr.argOccurrences env site 0 args
  | ret none _ => []
  | ret (some value) _ => value.occurrences env site.value
  | ifThen cond body _ | loop cond body _ =>
    cond.occurrences env site.cond ++ .branch body :: body.occurrences env site.thenBranch
  | ifElse cond body other _ =>
    cond.occurrences env site.cond ++ .branch body :: (body.occurrences env site.thenBranch ++
      .branch other :: other.occurrences env site.elseBranch)
  | unknown .. => []

/-- The statements of a list from the `k`th on, whose sites are given. -/
def occurrencesFrom (env : Environment) (sites : Nat → Site) (k : Nat) :
    List Stmt → List Occurrence
  | [] => []
  | s :: rest => s.occurrences env (sites k) ++
      occurrencesFrom (s.environmentAfter env (sites k)) sites (k + 1) rest

end

end Stmt

/-- The body of a method, in an environment with its parameters. -/
def MethodDecl.occurrences (env : Environment) (site : Site) (m : MethodDecl) : List Occurrence :=
  Stmt.occurrencesFrom (env.withParams site 0 m.head.params) site.body 0 m.body

namespace Program

/-- What names mean outside the methods of a class: its members, the classes of the program and
the predefined ones. -/
def environment (p : Program) (site : Site) (c : ClassDecl) : Environment where
  locals _ := none
  member name := (c.members site).find? (·.name = name)
  cls name := ((p.sitedClasses.map fun c => c.2.ref c.1) ++ Predefined.classes).find?
    (·.name = name)

/-- What reading the bodies of all methods comes across. -/
def occurrences (p : Program) : List Occurrence :=
  p.sitedClasses.flatMap fun (cls, c) => (c.sitedMethods cls).flatMap fun (site, m) =>
    m.occurrences (p.environment cls c) site

end Program

section Reading

variable {g : Globals} {ctx : Resolving.Context} {locals : Scope} {env : Environment}
variable {bound : Site → Option Decl}

/-- Whether what a name may be used for is what it means. -/
def Globals.Lexical (g : Globals) (ctx : Resolving.Context) (locals : Scope) (env : Environment) :
    Prop :=
  ∀ name d, g.nameDecl? ctx locals name = some d → env.meaning name = some d

/-- Some uses are without fault and bound. -/
def AllSettled (g : Globals) (bound : Site → Option Decl) (uses : List Use) : Prop :=
  ∀ u ∈ uses, u.Ok g ∧ u.Bound g bound

def AllHold (bound : Site → Option Decl) (occurrences : List Occurrence) : Prop :=
  ∀ o ∈ occurrences, o.Holds bound

theorem AllSettled.split {us vs : List Use} (h : AllSettled g bound (us ++ vs)) :
    AllSettled g bound us ∧ AllSettled g bound vs := List.forall_mem_append.mp h

theorem AllSettled.uncons {u : Use} {us : List Use} (h : AllSettled g bound (u :: us)) :
    (u.Ok g ∧ u.Bound g bound) ∧ AllSettled g bound us := List.forall_mem_cons.mp h

theorem AllHold.append {os os' : List Occurrence} (h : AllHold bound os) (h' : AllHold bound os') :
    AllHold bound (os ++ os') := List.forall_mem_append.mpr ⟨h, h'⟩

theorem AllHold.cons {o : Occurrence} {os : List Occurrence} (h : o.Holds bound)
    (h' : AllHold bound os) : AllHold bound (o :: os) := List.forall_mem_cons.mpr ⟨h, h'⟩

theorem AllHold.nil : AllHold bound [] := by simp [AllHold]

/-- The name at the root of a reference that denotes something means what it is bound to. -/
theorem Reference.occurrences_hold (lexical : g.Lexical ctx locals env) {site : Site}
    {r : Reference} (ok : (r.denote? g ctx locals).isSome)
    (here : ∀ l ∈ r.links site, ∀ slot ∈ l.2.slots l.1,
      bound slot = (l.2.denote? g ctx locals).join) :
    AllHold bound (r.occurrences env site) := by
  induction r generalizing site with
  | this | unknown => exact .nil
  | ident name pos =>
    obtain ⟨o, denoted⟩ := Option.isSome_iff_exists.mp ok
    obtain ⟨d, found, rfl⟩ := Option.map_eq_some_iff.mp denoted
    have slots := here (site, .ident name pos) (List.mem_singleton_self _)
    have meaning : ((Reference.ident name pos).denote? g ctx locals).join = some d := by
      rw [denoted, Option.join_some]
    refine .cons ⟨d, lexical _ _ found, ?_, ?_⟩ .nil
    · exact (slots site List.mem_cons_self).trans meaning
    · exact (slots site.name (List.mem_cons_of_mem _ (List.mem_singleton_self _))).trans meaning
  | qualified qualifier name pos ih =>
    refine ih ?_ fun l hl => here l (List.mem_cons_of_mem _ hl)
    cases meaning : qualifier.denote? g ctx locals with
    | some o => rfl
    | none => simp [denote?, meaning] at ok

theorem Use.ref_hold (lexical : g.Lexical ctx locals env) {site : Site} {r : Reference}
    (h : (Use.ref ctx locals site r).Ok g ∧ (Use.ref ctx locals site r).Bound g bound) :
    AllHold bound (r.occurrences env site) :=
  Reference.occurrences_hold lexical h.1 h.2

theorem Use.callee_hold (lexical : g.Lexical ctx locals env) {site : Site} {r : Reference}
    (h : (Use.callee ctx locals site r).Ok g ∧ (Use.callee ctx locals site r).Bound g bound) :
    AllHold bound (r.occurrences env site) := by
  obtain ⟨⟨o, meaning, -⟩, here⟩ := h
  exact Reference.occurrences_hold lexical (Option.isSome_iff_exists.mpr ⟨o, meaning⟩) here

mutual

theorem Expr.occurrences_hold (lexical : g.Lexical ctx locals env) {site : Site} (e : Expr)
    (h : AllSettled g bound (e.uses ctx locals site)) :
    AllHold bound (e.occurrences env site) := by
  match e with
  | .int .. | .bool .. | .null .. | .newObject .. | .unknown .. => exact .nil
  | .unary op operand pos => exact operand.occurrences_hold lexical h
  | .binary op left right pos =>
    obtain ⟨first, second⟩ := AllSettled.split h
    exact (left.occurrences_hold lexical first).append (right.occurrences_hold lexical second)
  | .ref r pos => exact Use.ref_hold lexical (AllSettled.uncons h).1
  | .index r i pos =>
    obtain ⟨ref, rest⟩ := AllSettled.uncons h
    exact (Use.ref_hold lexical ref).append (i.occurrences_hold lexical rest)
  | .call method args pos =>
    obtain ⟨callee, rest⟩ := AllSettled.uncons h
    exact (Use.callee_hold lexical callee).append (Expr.argOccurrences_hold lexical args rest)
  | .newArray element size pos => exact size.occurrences_hold lexical (AllSettled.uncons h).2

theorem Expr.argOccurrences_hold (lexical : g.Lexical ctx locals env) {call : Site} {k : Nat}
    (args : List Expr) (h : AllSettled g bound (Expr.argUses ctx locals call k args)) :
    AllHold bound (Expr.argOccurrences env call k args) := by
  match args with
  | [] => exact .nil
  | e :: rest =>
    obtain ⟨first, later⟩ := AllSettled.split h
    exact (e.occurrences_hold lexical first).append (Expr.argOccurrences_hold lexical rest later)

end

/-- An environment knows the locals in force, the members of the class and the classes. -/
structure Environment.Matches (env : Environment) (g : Globals) (ctx : Resolving.Context)
    (locals : Scope) : Prop where
  settled : ctx.initializing = none
  locals : ∀ name, env.locals name = locals.lookup name
  member : ∀ name, env.member name = g.members ctx.cls.name name
  cls : ∀ name, env.cls name = g.classes name

namespace Environment.Matches

theorem meaning (h : env.Matches g ctx locals) (name : String) :
    env.meaning name = g.lookup ctx locals name := by
  rw [Environment.meaning, Globals.lookup, h.locals, h.member, h.cls]

theorem lexical (h : env.Matches g ctx locals) : g.Lexical ctx locals env := fun name _ found =>
  (h.meaning name).trans (Globals.lookup_of_nameDecl found)

theorem declare (h : env.Matches g ctx locals) (d : Decl) :
    (env.declare d).Matches g ctx ((d.name, d) :: locals) where
  settled := h.settled
  locals := by
    intro name
    by_cases same : name = d.name
    · simp [Environment.declare, same]
    · rw [lookup_cons_of_ne same]
      simp [Environment.declare, same, h.locals]
  member := h.member
  cls := h.cls

/-- In its initializer a variable cannot be used, so every name there means what it meant before
the declaration. -/
theorem initializer (h : env.Matches g ctx locals) (d : Decl) :
    g.Lexical { ctx with initializing := some d } ((d.name, d) :: locals) env := by
  intro name e found
  have meaning := (h.declare d).meaning name
  rw [Globals.lookup] at meaning
  obtain ⟨m, looked, allowed⟩ := Option.bind_eq_some_iff.mp found
  have same : (env.declare d).meaning name = some m := meaning.trans looked
  split at allowed
  · cases allowed
  · rename_i other
    obtain rfl : m = e := by
      split at allowed <;> cases allowed
      rfl
    by_cases own : name = d.name
    · simp only [Environment.meaning, Environment.declare, own, if_true, Option.some_or] at same
      exact absurd same other
    · simpa only [Environment.meaning, Environment.declare, own, if_false] using same

theorem after (h : env.Matches g ctx locals) (site : Site) (s : Stmt) :
    (s.environmentAfter env site).Matches g ctx (s.localsAfter locals site) := by
  cases s with
  | declare var init pos => exact h.declare (.var site.var var)
  | block | assign | assignIndex | call | ret | ifThen | ifElse | loop | unknown => exact h

theorem withParams (h : env.Matches g ctx locals) (method : Site) (k : Nat)
    (params : List ParamDecl) : (env.withParams method k params).Matches g ctx
      (MethodDecl.paramScope method k locals params) := by
  induction params generalizing env locals k with
  | nil => exact h
  | cons p rest ih => exact ih (h.declare (.param (method.param k) p)) (k + 1)

end Environment.Matches

namespace Stmt

mutual

theorem occurrences_hold {locals : Scope} {env : Environment} (same : env.Matches g ctx locals)
    {site : Site} (s : Stmt)
    (h : AllSettled g bound (s.uses ctx locals site)) :
    AllHold bound (s.occurrences env site) := by
  match s with
  | .unknown .. | .ret none _ => exact .nil
  | .block stmts pos => exact occurrencesFrom_hold same stmts h
  | .declare var init pos =>
    obtain ⟨-, rest⟩ := AllSettled.uncons h
    obtain ⟨⟨free, -⟩, rest⟩ := AllSettled.uncons rest
    exact AllHold.cons ((same.locals _).trans free)
      (init.occurrences_hold (same.initializer (.var site.var var)) rest)
  | .assign target value pos =>
    obtain ⟨ref, rest⟩ := AllSettled.uncons h
    exact (Use.ref_hold same.lexical ref).append (value.occurrences_hold same.lexical rest)
  | .assignIndex target index value pos =>
    obtain ⟨ref, rest⟩ := AllSettled.uncons h
    obtain ⟨first, second⟩ := AllSettled.split rest
    exact (Use.ref_hold same.lexical ref).append ((index.occurrences_hold same.lexical first).append
      (value.occurrences_hold same.lexical second))
  | .call method args pos =>
    obtain ⟨callee, rest⟩ := AllSettled.uncons h
    exact (Use.callee_hold same.lexical callee).append
      (Expr.argOccurrences_hold same.lexical args rest)
  | .ret (some value) _ => exact value.occurrences_hold same.lexical h
  | .ifThen cond body pos | .loop cond body pos =>
    obtain ⟨test, rest⟩ := AllSettled.split h
    obtain ⟨⟨proper, -⟩, rest⟩ := AllSettled.uncons rest
    exact (cond.occurrences_hold same.lexical test).append
      (AllHold.cons proper (occurrences_hold same body rest))
  | .ifElse cond body other pos =>
    obtain ⟨test, rest⟩ := AllSettled.split h
    obtain ⟨⟨proper, -⟩, rest⟩ := AllSettled.uncons rest
    obtain ⟨first, rest⟩ := AllSettled.split rest
    obtain ⟨⟨proper', -⟩, second⟩ := AllSettled.uncons rest
    exact (cond.occurrences_hold same.lexical test).append (AllHold.cons proper
      ((occurrences_hold same body first).append
        (AllHold.cons proper' (occurrences_hold same other second))))

theorem occurrencesFrom_hold {locals : Scope} {env : Environment}
    (same : env.Matches g ctx locals) {sites : Nat → Site} {k : Nat} (stmts : List Stmt)
    (h : AllSettled g bound (usesFrom ctx locals sites k stmts)) :
    AllHold bound (occurrencesFrom env sites k stmts) := by
  match stmts with
  | [] => exact .nil
  | s :: rest =>
    obtain ⟨first, later⟩ := AllSettled.split h
    exact (occurrences_hold same s first).append
      (occurrencesFrom_hold (same.after (sites k) s) rest later)

end

end Stmt

end Reading

/-- The names that stand by themselves in the references of some uses occur. -/
def Covers (uses : List Use) (occurrences : List Occurrence) : Prop :=
  ∀ u ∈ uses, ∀ r ∈ u.references, ∀ site name pos, (site, .ident name pos) ∈ r.2.links r.1 →
    ∃ env, .name env site name.spelling ∈ occurrences

namespace Covers

variable {u : Use} {us vs : List Use} {os os' : List Occurrence}

theorem nil (os : List Occurrence) : Covers [] os := by simp [Covers]

theorem mono (h : Covers us os) (sub : os ⊆ os') : Covers us os' :=
  fun u hu r hr site name pos hl => (h u hu r hr site name pos hl).imp fun _ ho => sub ho

theorem append (h : Covers us os) (h' : Covers vs os') : Covers (us ++ vs) (os ++ os') :=
  List.forall_mem_append.mpr
    ⟨h.mono (List.subset_append_left _ _), h'.mono (List.subset_append_right _ _)⟩

/-- A use without references. -/
theorem cons (none : u.references = []) (h : Covers us os) : Covers (u :: us) os :=
  List.forall_mem_cons.mpr ⟨by simp [none], h⟩

theorem branch {body : Stmt} (h : Covers us os) :
    Covers (.branch body :: us) (.branch body :: os) :=
  cons rfl (h.mono (List.subset_cons_self _ _))

/-- A use of one reference. -/
theorem ref {site : Site} {r : Reference} (env : Environment) (one : u.references = [(site, r)])
    (h : Covers us os) : Covers (u :: us) (r.occurrences env site ++ os) := by
  refine List.forall_mem_cons.mpr ⟨?_, h.mono (List.subset_append_right _ _)⟩
  rw [one]
  intro q hq s name pos hl
  obtain rfl := List.mem_singleton.mp hq
  refine ⟨env, List.mem_append_left _ ?_⟩
  clear one hq
  induction r generalizing site with
  | this | unknown => cases List.mem_singleton.mp hl
  | ident =>
    cases List.mem_singleton.mp hl
    exact List.mem_singleton_self _
  | qualified qualifier name pos ih =>
    rcases List.mem_cons.mp hl with same | hl
    · cases same
    · exact ih hl

end Covers

mutual

theorem Expr.covers {ctx : Resolving.Context} {locals : Scope} {env : Environment} {site : Site}
    (e : Expr) : Covers (e.uses ctx locals site) (e.occurrences env site) := by
  match e with
  | .int .. | .bool .. | .null .. => exact .nil _
  | .newObject .. | .unknown .. => exact .cons rfl (.nil _)
  | .unary op operand pos => exact operand.covers
  | .binary op left right pos => exact left.covers.append right.covers
  | .ref r pos => exact (Covers.ref env rfl (.nil [])).mono (by simp [Expr.occurrences])
  | .index r i pos => exact .ref env rfl i.covers
  | .call method args pos => exact .ref env rfl (Expr.args_covers args)
  | .newArray element size pos => exact .cons rfl size.covers

theorem Expr.args_covers {ctx : Resolving.Context} {locals : Scope} {env : Environment}
    {call : Site} {k : Nat} (args : List Expr) :
    Covers (Expr.argUses ctx locals call k args) (Expr.argOccurrences env call k args) := by
  match args with
  | [] => exact .nil _
  | e :: rest => exact e.covers.append (Expr.args_covers rest)

end

namespace Stmt

mutual

theorem covers {ctx : Resolving.Context} {locals : Scope} {env : Environment} {site : Site}
    (s : Stmt) : Covers (s.uses ctx locals site) (s.occurrences env site) := by
  match s with
  | .ret none _ => exact .nil _
  | .unknown .. => exact .cons rfl (.nil _)
  | .block stmts pos => exact covers_from stmts
  | .declare var init pos =>
    exact .cons rfl (.cons rfl (init.covers.mono (List.subset_cons_self _ _)))
  | .assign target value pos => exact .ref env rfl value.covers
  | .assignIndex target index value pos => exact .ref env rfl (index.covers.append value.covers)
  | .call method args pos => exact .ref env rfl (Expr.args_covers args)
  | .ret (some value) _ => exact value.covers
  | .ifThen cond body pos | .loop cond body pos =>
    exact cond.covers.append (covers body).branch
  | .ifElse cond body other pos =>
    exact cond.covers.append ((covers body).append (covers other).branch).branch

theorem covers_from {ctx : Resolving.Context} {locals : Scope} {env : Environment}
    {sites : Nat → Site} {k : Nat} (stmts : List Stmt) :
    Covers (usesFrom ctx locals sites k stmts) (occurrencesFrom env sites k stmts) := by
  match stmts with
  | [] => exact .nil _
  | s :: rest => exact (covers s).append (covers_from rest)

end

end Stmt

namespace Program

variable {p : Program} {bound : Site → Option Decl}

theorem Collectable.environment_cls (ok : p.Collectable) (site : Site) (c : ClassDecl)
    (name : String) : (p.environment site c).cls name = p.classNamed name := by
  let user := p.sitedClasses.map fun c => c.2.ref c.1
  have pairs : p.classPairs = (Predefined.classes ++ user).map fun r => (r.name, r) := by
    rw [List.map_append, List.map_map]
    rfl
  have order : p.classPairs.Perm ((user ++ Predefined.classes).map fun r => (r.name, r)) :=
    pairs ▸ List.perm_append_comm.map _
  calc (p.environment site c).cls name
    _ = ((user ++ Predefined.classes).map fun r => (r.name, r)).lookup name :=
      (lookup_map_self ClassRef.name _ name).symm
    _ = p.classNamed name := lookup_eq_of_perm ok.classes order

theorem Collectable.environment_member (ok : p.Collectable) {k : Nat} {c : ClassDecl}
    (h : p.classes[k]? = some c) (name : String) :
    (p.environment (.classAt k) c).member name = p.memberPairs.lookup (c.name, name) := by
  have keys : (((c.members (.classAt k)).map fun d => (d.name, d)).map Prod.fst).Nodup := by
    rw [List.map_map]
    exact ok.members_distinct h
  refine (lookup_map_self Decl.name _ name).symm.trans (Option.ext fun d => ?_)
  rw [lookup_eq_some_iff_mem keys, ok.lookup_member h, List.mem_map]
  constructor
  · rintro ⟨e, he, same⟩
    cases same
    exact ⟨he, rfl⟩
  · rintro ⟨hd, rfl⟩
    exact ⟨d, hd, rfl⟩

/-- In a resolved program names are bound as the reading with environments says. -/
theorem Settled.occurrences_hold (settled : p.Settled bound) (resolvable : p.Resolvable) :
    AllHold bound p.occurrences := by
  intro o ho
  obtain ⟨⟨cls, c⟩, hc, ho⟩ := List.mem_flatMap.mp ho
  obtain ⟨⟨site, m⟩, hm, ho⟩ := List.mem_flatMap.mp ho
  obtain ⟨k, hk, rfl⟩ := mem_sitedClasses.mp hc
  have outside : (p.environment (.classAt k) c).Matches (p.globals k)
      (m.context (c.ref (.classAt k))) [] :=
    ⟨rfl, fun _ => rfl, resolvable.collectable.environment_member hk,
      resolvable.collectable.environment_cls _ c⟩
  refine Stmt.occurrencesFrom_hold (outside.withParams site 0 m.head.params) m.body ?_ o ho
  intro u hu
  have use := ClassDecl.bodyUses_subset hm hu
  exact ⟨resolvable.ok k c hk u use, settled.bound k c hk u use⟩

/-- Every name that stands by itself as a reference in the program occurs in that reading. -/
theorem exists_occurrence {site : Site} {name : Identifier} {pos : Nat}
    (h : (site, .ident name pos) ∈ p.links) :
    ∃ env, .name env site name.spelling ∈ p.occurrences := by
  obtain ⟨u, hu, r, hr, hl⟩ := mem_links.mp h
  obtain ⟨⟨cls, c⟩, hc, hu⟩ := List.mem_flatMap.mp hu
  obtain ⟨method, m, hm, hu⟩ := ClassDecl.mem_bodyUses hu hr
  have body : Covers (m.bodyUses (c.ref cls) method)
      (m.occurrences (p.environment cls c) method) := Stmt.covers_from m.body
  obtain ⟨env, ho⟩ := body u hu r hr site name pos hl
  exact ⟨env, List.mem_flatMap.mpr ⟨(cls, c), hc, List.mem_flatMap.mpr ⟨(method, m), hm, ho⟩⟩⟩

end Program

/-- After a resolution without errors every name that stands by itself as a reference is bound,
with its identifier, to the declaration that it means in the environment handed down to it. No
local variable is declared where its name is that of a parameter or local variable in force, and
no branch of a statement is a declaration. -/
theorem names_bound_lexically {p : Program} {failFast : Bool} {c : Compilation} {t : ScopeTable}
    (resolved : (p.start failFast).resolve = (c, t, .ok ())) (clean : c.log.isClean) :
    (∀ site name pos, (site, .ident name pos) ∈ p.links →
      ∃ env, .name env site name.spelling ∈ p.occurrences) ∧
    (∀ env site name, .name env site name ∈ p.occurrences → ∃ d, env.meaning name = some d ∧
      c.bindings.get? site = some d ∧ c.bindings.get? site.name = some d) ∧
    (∀ env var, .declaration env var ∈ p.occurrences → env.locals var.name = none) ∧
    (∀ body, .branch body ∈ p.occurrences → body.isDeclaration = false) := by
  obtain ⟨resolvable, settled, -, -⟩ := Program.settled_of_resolve resolved clean
  have all := settled.occurrences_hold resolvable
  exact ⟨fun site name pos => Program.exists_occurrence, fun env site name => all _,
    fun env var => all _, fun body => all _⟩

/-- A parameter, a field and a class are used by their names, and a name comes back in a sibling
block. -/
def scopedText : List Char :=
  ("class A \x7b static int f; static void m(int a) \x7b \x7b int b = a; int c = b + f; \x7d " ++
    "\x7b int b = f; A.f = b; \x7d \x7d public static void main(String[] a) \x7b \x7d \x7d").toList

theorem scopedText_bound : ∃ p c t, Program.ofText? scopedText = .ok p ∧
    (p.start false).resolve = (c, t, .ok ()) ∧ c.log.isClean ∧
    ((∀ site name pos, (site, .ident name pos) ∈ p.links →
        ∃ env, .name env site name.spelling ∈ p.occurrences) ∧
      (∀ env site name, .name env site name ∈ p.occurrences → ∃ d, env.meaning name = some d ∧
        c.bindings.get? site = some d ∧ c.bindings.get? site.name = some d) ∧
      (∀ env var, .declaration env var ∈ p.occurrences → env.locals var.name = none) ∧
      (∀ body, .branch body ∈ p.occurrences → body.isDeclaration = false)) ∧
    p.occurrences.length = 9 := by
  obtain ⟨p, c, t, parsed, resolved, clean, count⟩ := exists_resolved_of_check scopedText
    (P := fun p _ => p.occurrences.length = 9) (by decide +kernel)
  exact ⟨p, c, t, parsed, resolved, clean, names_bound_lexically resolved clean,
    of_decide_eq_true count⟩

end JamCompiler

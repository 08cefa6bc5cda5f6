import JamCompiler.Proofs.Scoping

/-!
# Access control

What a reference in the body of a method may be bound to, given the class of the method and whether
the method is static. Each link of a reference is looked at by itself, so the rules hold at any
depth of a qualified name.

A resolution without errors binds references only as these rules allow, and targets of calls only to
methods.
-/

namespace JamCompiler

/-- Whether a declaration is a member of a class, predefined or of the program. -/
def Program.HasMember (p : Program) (cls : ClassRef) (d : Decl) : Prop :=
  cls ∈ Predefined.classes ∧ d ∈ Predefined.members cls ∨
    ∃ k, ∃ c : ClassDecl, p.classes[k]? = some c ∧ cls = c.ref (.classAt k) ∧
      d ∈ c.members (.classAt k)

/-- What the bindings of a reference in a method of a class have to respect. `this` needs an
instance; a member by its name alone is one of the class, static exactly if the method is; a private
member is used in its own class; behind a class stand its static members; and nothing stands behind
a method. -/
def Reference.Accessible (p : Program) (cls : ClassRef) (isStatic : Bool)
    (bound : Site → Option Decl) (site : Site) : Reference → Prop
  | this _ => isStatic = false ∧ bound site = some (.cls cls)
  | ident .. => ∀ d, bound site = some d → d.isMember → p.HasMember cls d ∧ d.isStatic = isStatic
  | qualified qualifier _ _ =>
    (∀ d, bound site = some d → d.isPrivate → p.HasMember cls d) ∧
    (∀ name pos c d, qualifier = ident name pos → bound site.qualifier = some (.cls c) →
      bound site = some d → p.HasMember c d ∧ d.isStatic) ∧
    ∀ d, bound site.qualifier = some d → d.isMethod = false
  | unknown .. => False

namespace MethodDecl

/-- All references in the body of a method, those that qualify others included. -/
def links (cls : ClassRef) (site : Site) (m : MethodDecl) : List (Site × Reference) :=
  (m.bodyUses cls site).flatMap fun u => u.references.flatMap fun r => r.2.links r.1

/-- The targets of the calls in the body of a method. -/
def callees (cls : ClassRef) (site : Site) (m : MethodDecl) : List (Site × Reference) :=
  (m.bodyUses cls site).filterMap fun
    | .callee _ _ site r => some (site, r)
    | _ => none

end MethodDecl

/-- Where the reference of a use stands. -/
def Use.context? : Use → Option Resolving.Context
  | ref ctx _ _ _ | callee ctx _ _ _ => some ctx
  | _ => none

/-- Whether a use belongs to a method of a class, static or not. -/
def Use.StandsIn (cls : ClassRef) (isStatic : Bool) : Use → Prop
  | ref ctx _ _ _ | callee ctx _ _ _ => ctx.cls = cls ∧ ctx.isStatic = isStatic
  | _ => True

mutual

theorem Expr.uses_stand {ctx : Resolving.Context} {locals : Scope} {site : Site} (e : Expr) :
    ∀ u ∈ e.uses ctx locals site, u.StandsIn ctx.cls ctx.isStatic := by
  match e with
  | .int .. | .bool .. | .null .. => simp [uses]
  | .newObject .. | .unknown .. => simp [uses, Use.StandsIn]
  | .unary _ operand _ => exact operand.uses_stand
  | .binary _ left right _ => exact List.forall_mem_append.mpr ⟨left.uses_stand, right.uses_stand⟩
  | .ref r _ => simp [uses, Use.StandsIn]
  | .index r i _ => exact List.forall_mem_cons.mpr ⟨⟨rfl, rfl⟩, i.uses_stand⟩
  | .call method args _ => exact List.forall_mem_cons.mpr ⟨⟨rfl, rfl⟩, Expr.argUses_stand args⟩
  | .newArray element size _ => exact List.forall_mem_cons.mpr ⟨trivial, size.uses_stand⟩

theorem Expr.argUses_stand {ctx : Resolving.Context} {locals : Scope} {call : Site} {k : Nat}
    (args : List Expr) :
    ∀ u ∈ Expr.argUses ctx locals call k args, u.StandsIn ctx.cls ctx.isStatic := by
  match args with
  | [] => simp [argUses]
  | e :: rest => exact List.forall_mem_append.mpr ⟨e.uses_stand, Expr.argUses_stand rest⟩

end

namespace Stmt

mutual

theorem uses_stand {ctx : Resolving.Context} {locals : Scope} {site : Site} (s : Stmt) :
    ∀ u ∈ s.uses ctx locals site, u.StandsIn ctx.cls ctx.isStatic := by
  match s with
  | .ret none _ => simp [uses]
  | .unknown .. => simp [uses, Use.StandsIn]
  | .block stmts _ => exact usesFrom_stand stmts
  | .declare var init _ =>
    exact List.forall_mem_cons.mpr ⟨trivial, List.forall_mem_cons.mpr ⟨trivial, init.uses_stand⟩⟩
  | .assign target value _ => exact List.forall_mem_cons.mpr ⟨⟨rfl, rfl⟩, value.uses_stand⟩
  | .assignIndex target index value _ =>
    exact List.forall_mem_cons.mpr
      ⟨⟨rfl, rfl⟩, List.forall_mem_append.mpr ⟨index.uses_stand, value.uses_stand⟩⟩
  | .call method args _ => exact List.forall_mem_cons.mpr ⟨⟨rfl, rfl⟩, Expr.argUses_stand args⟩
  | .ret (some value) _ => exact value.uses_stand
  | .ifThen cond body _ | .loop cond body _ =>
    exact List.forall_mem_append.mpr
      ⟨cond.uses_stand, List.forall_mem_cons.mpr ⟨trivial, uses_stand body⟩⟩
  | .ifElse cond body other _ =>
    exact List.forall_mem_append.mpr ⟨cond.uses_stand, List.forall_mem_cons.mpr
      ⟨trivial, List.forall_mem_append.mpr
        ⟨uses_stand body, List.forall_mem_cons.mpr ⟨trivial, uses_stand other⟩⟩⟩⟩

theorem usesFrom_stand {ctx : Resolving.Context} {locals : Scope} {sites : Nat → Site} {k : Nat}
    (stmts : List Stmt) :
    ∀ u ∈ usesFrom ctx locals sites k stmts, u.StandsIn ctx.cls ctx.isStatic := by
  match stmts with
  | [] => simp [usesFrom]
  | s :: rest => exact List.forall_mem_append.mpr ⟨uses_stand s, usesFrom_stand rest⟩

end

end Stmt

namespace Program

variable {p : Program} {name : String} {c : ClassRef} {d : Decl}

theorem name_of_classNamed (h : p.classNamed name = some c) : c.name = name := by
  have pair := mem_of_lookup h
  rw [classPairs, List.mem_append, List.mem_map, List.mem_map] at pair
  rcases pair with ⟨b, -, same⟩ | ⟨b, -, same⟩ <;> cases same <;> rfl

/-- What the registry has under the name of a class is a member of that class. -/
theorem Collectable.hasMember (ok : p.Collectable) (known : p.classNamed c.name = some c)
    (found : p.memberPairs.lookup (c.name, name) = some d) : p.HasMember c d := by
  have pair := mem_of_lookup known
  rw [classPairs, List.mem_append, List.mem_map, List.mem_map] at pair
  rcases pair with ⟨b, hb, same⟩ | ⟨⟨site, b⟩, hb, same⟩
  · obtain rfl : b = c := congrArg Prod.snd same
    refine .inl ⟨hb, ?_⟩
    have member := mem_of_lookup found
    rw [memberPairs, List.mem_append] at member
    rcases member with member | member
    · rw [predefined_memberPairs] at member
      simp only [List.mem_cons, Prod.mk.injEq, List.not_mem_nil, or_false] at member
      simp only [Predefined.classes, List.mem_cons, List.not_mem_nil, or_false] at hb
      rcases hb with rfl | rfl | rfl <;> rcases member with ⟨⟨own, -⟩, rfl⟩ | ⟨⟨own, -⟩, rfl⟩ <;>
        first | exact absurd own (by decide) | decide
    · obtain ⟨⟨site, e⟩, hc, hd⟩ := List.mem_flatMap.mp member
      obtain ⟨k, hk, rfl⟩ := mem_sitedClasses.mp hc
      obtain ⟨m, -, same⟩ := List.mem_map.mp hd
      have own : e.name = b.name := congrArg (fun q => q.1.1) same
      exact absurd (own ▸ List.mem_map_of_mem hb) (ok.not_predefined hk)
  · obtain rfl : b.ref site = c := congrArg Prod.snd same
    obtain ⟨k, hk, rfl⟩ := mem_sitedClasses.mp hb
    exact .inr ⟨k, b, hk, rfl, ((ok.lookup_member hk).mp found).1⟩

/-- Where references of a method stand: in which class and kind of method, with which locals. -/
structure Place (p : Program) (k : Nat) (b : ClassDecl) (isStatic : Bool) (ctx : Resolving.Context)
    (locals : Scope) : Prop where
  collectable : p.Collectable
  found : p.classes[k]? = some b
  cls : ctx.cls = b.ref (.classAt k)
  static : ctx.isStatic = isStatic
  locals : ∀ q ∈ locals, (∀ c, q.2 ≠ .cls c) ∧ q.2.isMember = false

namespace Place

variable {k : Nat} {b : ClassDecl} {isStatic : Bool} {ctx : Resolving.Context} {locals : Scope}

theorem named (h : p.Place k b isStatic ctx locals) : p.classNamed ctx.cls.name = some ctx.cls := by
  rw [h.cls]
  exact h.collectable.lookup_class h.found

/-- A class is found by its name only where classes are registered. -/
theorem classNamed (h : p.Place k b isStatic ctx locals)
    (found : (p.globals k).nameDecl? ctx locals name = some (.cls c)) :
    p.classNamed c.name = some c := by
  have looked := Globals.lookup_of_nameDecl found
  rw [Globals.lookup, Option.or_eq_some_iff, Option.or_eq_some_iff] at looked
  rcases looked with looked | ⟨-, looked | ⟨-, looked⟩⟩
  · exact absurd rfl ((h.locals _ (mem_of_lookup looked)).1 c)
  · rcases member_cases (mem_of_lookup looked) with ⟨-, same | same⟩ | ⟨j, e, -, member, -⟩
    · cases same
    · cases same
    · rcases ClassDecl.mem_members.mp member with ⟨i, f, -, same⟩ | ⟨i, m, -, same⟩ <;> cases same
  · obtain ⟨e, known, same⟩ := Option.map_eq_some_iff.mp looked
    cases same
    rwa [name_of_classNamed known]

/-- A member by its name alone is one of the class around the method. -/
theorem member (h : p.Place k b isStatic ctx locals)
    (found : (p.globals k).nameDecl? ctx locals name = some d) (member : d.isMember) :
    p.HasMember ctx.cls d ∧ d.isStatic = isStatic := by
  have looked := Globals.lookup_of_nameDecl found
  constructor
  · rw [Globals.lookup, Option.or_eq_some_iff, Option.or_eq_some_iff] at looked
    rcases looked with looked | ⟨-, looked | ⟨-, looked⟩⟩
    · rw [(h.locals _ (mem_of_lookup looked)).2] at member
      cases member
    · exact h.collectable.hasMember h.named looked
    · obtain ⟨e, -, same⟩ := Option.map_eq_some_iff.mp looked
      cases same
      cases member
  · obtain ⟨e, -, allowed⟩ := Option.bind_eq_some_iff.mp found
    split at allowed
    · cases allowed
    · split at allowed
      · cases allowed
      · rename_i proper
        cases allowed
        rw [member, h.static] at proper
        simpa using proper

/-- A member that may be used is one of the class, and is in the class around if it is private. -/
theorem memberOf (h : p.Place k b isStatic ctx locals)
    (found : (p.globals k).memberOf? ctx c name = some d) (hidden : d.isPrivate) :
    p.HasMember ctx.cls d := by
  obtain ⟨m, looked, allowed⟩ := Option.bind_eq_some_iff.mp found
  split at allowed
  · cases allowed
  · rename_i visible
    cases allowed
    obtain rfl : c = ctx.cls := by simpa [hidden] using visible
    exact h.collectable.hasMember h.named looked

theorem memberAfter (h : p.Place k b isStatic ctx locals) {qualifier : Reference} {base : Decl}
    (found : (p.globals k).memberAfter? ctx qualifier base name = some (some d))
    (hidden : d.isPrivate) : p.HasMember ctx.cls d := by
  rcases Globals.member_of_memberAfter found with ⟨c, member⟩ | rfl
  · exact h.memberOf member hidden
  · cases hidden

/-- Behind the name of a class stand its static members. -/
theorem memberOfClass (h : p.Place k b isStatic ctx locals) {id : Identifier} {pos : Nat}
    (found : (p.globals k).nameDecl? ctx locals id.spelling = some (.cls c))
    (meaning : (p.globals k).memberAfter? ctx (.ident id pos) (.cls c) name = some (some d)) :
    p.HasMember c d ∧ d.isStatic := by
  obtain ⟨m, member, same⟩ := Option.map_eq_some_iff.mp meaning
  cases same
  obtain ⟨m, member, static⟩ := Option.bind_eq_some_iff.mp member
  split at static
  · rename_i isStatic
    cases static
    exact ⟨h.collectable.hasMember (h.classNamed found) (Globals.members_of_memberOf member),
      isStatic⟩
  · cases static

end Place

end Program

theorem Globals.not_method_of_memberAfter {g : Globals} {ctx : Resolving.Context}
    {qualifier : Reference} {base : Decl} {name : String}
    (h : (g.memberAfter? ctx qualifier base name).isSome) : base.isMethod = false := by
  cases base with
  | method => cases qualifier <;> cases h
  | cls | field | param | var => rfl

/-- The bindings of a resolved reference respect the access rules. -/
theorem Reference.accessible_of_resolved {p : Program} {bound : Site → Option Decl} {k : Nat}
    {b : ClassDecl} {isStatic : Bool} {ctx : Resolving.Context} {locals : Scope} {site : Site}
    {r : Reference} (place : p.Place k b isStatic ctx locals)
    (h : p.Resolved bound k ctx locals site r) : r.Accessible p ctx.cls isStatic bound site := by
  have self := h.bound_self
  obtain ⟨o, meaning⟩ := Option.isSome_iff_exists.mp h.ok
  rw [meaning] at self
  cases r with
  | unknown kind pos => cases meaning
  | this pos =>
    simp only [denote?] at meaning
    split at meaning
    · cases meaning
    · rename_i proper
      cases meaning
      rw [place.static] at proper
      exact ⟨by simpa using proper, self⟩
  | ident name pos =>
    obtain ⟨d, found, rfl⟩ := Option.map_eq_some_iff.mp meaning
    intro e he member
    rw [self] at he
    cases he
    exact place.member found member
  | qualified qualifier name pos =>
    have base := h.qualifier.bound_self
    simp only [denote?] at meaning
    split at meaning
    · cases meaning
    · -- What is bound to nothing leaves what stands behind it unbound.
      rename_i unknown
      cases meaning
      rw [unknown] at base
      refine ⟨fun d hd => ?_, fun _ _ _ d _ _ hd => ?_, fun d hd => ?_⟩
      · rw [self] at hd; cases hd
      · rw [self] at hd; cases hd
      · rw [base] at hd; cases hd
    · rename_i e known
      rw [known] at base
      refine ⟨fun d hd hidden => ?_, ?_, fun d hd => ?_⟩
      · rw [self] at hd
        obtain rfl : o = some d := hd
        exact place.memberAfter meaning hidden
      · rintro id pos' c d rfl hc hd
        rw [base] at hc
        rw [self] at hd
        obtain rfl : o = some d := hd
        cases hc
        obtain ⟨_, found, same⟩ := Option.map_eq_some_iff.mp known
        cases same
        exact place.memberOfClass found meaning
      · rw [base] at hd
        cases hd
        exact Globals.not_method_of_memberAfter (Option.isSome_iff_exists.mpr ⟨o, meaning⟩)

namespace Program

variable {p : Program} {bound : Site → Option Decl} {k : Nat} {b : ClassDecl} {site : Site}
variable {m : MethodDecl}

/-- The references of a method stand in its class and were resolved there. -/
theorem Settled.placed (settled : p.Settled bound) (resolvable : p.Resolvable)
    (hk : p.classes[k]? = some b) (hm : (site, m) ∈ b.sitedMethods (.classAt k)) {u : Use}
    (hu : u ∈ m.bodyUses (b.ref (.classAt k)) site) {l : Site × Reference}
    (hl : l ∈ u.references) : ∃ ctx, u.context? = some ctx ∧ ctx.cls = b.ref (.classAt k) ∧
      p.Place k b m.head.isStatic ctx u.inForce ∧ p.Resolved bound k ctx u.inForce l.1 l.2 := by
  have use := ClassDecl.bodyUses_subset hm hu
  have ok := resolvable.ok k b hk u use
  have bound := settled.bound k b hk u use
  have within := settled.within k b hk u use
  have known := fun q hq => resolvable.local_known hk hm hu (q := q) hq
  have stands := Stmt.usesFrom_stand m.body u hu
  have locals : ∀ q ∈ u.inForce, (∀ c, q.2 ≠ .cls c) ∧ q.2.isMember = false := by
    intro q hq
    rcases MethodDecl.inForce_of_bodyUses hu hq with ⟨i, param, -, rfl⟩ | ⟨site', var, rfl, -⟩
    · exact ⟨by simp, rfl⟩
    · exact ⟨by simp, rfl⟩
  cases u with
  | type | declare | branch | foreign => cases hl
  | ref ctx locals' s r =>
    obtain rfl := List.mem_singleton.mp hl
    exact ⟨ctx, rfl, stands.1, ⟨resolvable.collectable, hk, stands.1, stands.2, locals⟩,
      ok, bound, known, within⟩
  | callee ctx locals' s r =>
    obtain rfl := List.mem_singleton.mp hl
    obtain ⟨o, denoted, -⟩ := ok
    exact ⟨ctx, rfl, stands.1, ⟨resolvable.collectable, hk, stands.1, stands.2, locals⟩,
      Option.isSome_iff_exists.mpr ⟨o, denoted⟩, bound, known, within⟩

theorem Settled.accessible (settled : p.Settled bound) (resolvable : p.Resolvable)
    (hk : p.classes[k]? = some b) (hm : (site, m) ∈ b.sitedMethods (.classAt k))
    {l : Site × Reference} (hl : l ∈ m.links (b.ref (.classAt k)) site) :
    l.2.Accessible p (b.ref (.classAt k)) m.head.isStatic bound l.1 := by
  obtain ⟨u, hu, hl⟩ := List.mem_flatMap.mp hl
  obtain ⟨r, hr, hl⟩ := List.mem_flatMap.mp hl
  obtain ⟨ctx, -, cls, place, whole⟩ := settled.placed resolvable hk hm hu hr
  rw [← cls]
  exact Reference.accessible_of_resolved place (whole.link hl)

/-- A call's target is bound to a method, unless one of its links is forward. -/
theorem Settled.callee_bound (settled : p.Settled bound) (resolvable : p.Resolvable)
    (hk : p.classes[k]? = some b) (hm : (site, m) ∈ b.sitedMethods (.classAt k))
    {l : Site × Reference} (hl : l ∈ m.callees (b.ref (.classAt k)) site) :
    (∀ d, bound l.1 = some d → d.isMethod) ∧
      ((∀ l' ∈ l.2.links l.1, ¬ Forward bound l') → (bound l.1).isSome) := by
  obtain ⟨u, hu, target⟩ := List.mem_filterMap.mp hl
  cases u with
  | type | ref | declare | branch | foreign => cases target
  | callee ctx locals s r =>
    cases target
    obtain ⟨o, denoted, method⟩ := resolvable.ok k b hk _ (ClassDecl.bodyUses_subset hm hu)
    obtain ⟨_, ⟨⟩, -, -, whole⟩ :=
      settled.placed resolvable hk hm hu (List.mem_singleton_self (s, r))
    have means : bound s = o := whole.bound_self.trans (congrArg Option.join denoted)
    refine ⟨fun d hd => method d (means.symm.trans hd), fun none => ?_⟩
    cases o with
    | some d => exact means ▸ rfl
    | none =>
      obtain ⟨l, hl, forward⟩ := whole.forward_of_open resolvable denoted
      exact absurd forward (none l hl)

end Program

/-- After a resolution without errors the bindings of all references in a method, at any depth of a
qualified name, respect the access rules; and the targets of calls are bound to methods only, and
to one unless they have a forward link. -/
theorem access_controlled {p : Program} {failFast : Bool} {c : Compilation} {t : ScopeTable}
    (resolved : (p.start failFast).resolve = (c, t, .ok ())) (clean : c.log.isClean) {k : Nat}
    {b : ClassDecl} (hk : p.classes[k]? = some b) {site : Site} {m : MethodDecl}
    (hm : (site, m) ∈ b.sitedMethods (.classAt k)) :
    (∀ l ∈ m.links (b.ref (.classAt k)) site,
      l.2.Accessible p (b.ref (.classAt k)) m.head.isStatic c.bindings.get? l.1) ∧
    ∀ l ∈ m.callees (b.ref (.classAt k)) site,
      (∀ d, c.bindings.get? l.1 = some d → d.isMethod) ∧
        ((∀ l' ∈ l.2.links l.1, ¬ Forward c.bindings.get? l') →
          (c.bindings.get? l.1).isSome) := by
  obtain ⟨resolvable, settled, -, -⟩ := Program.settled_of_resolve resolved clean
  exact ⟨fun l hl => settled.accessible resolvable hk hm hl,
    fun l hl => settled.callee_bound resolvable hk hm hl⟩

/-- A method that uses `this`, its own members, private ones of another object and a static one
behind the class. -/
def accessText : List Char :=
  ("class A \x7b private static int s; private int f; int g() \x7b return 1; \x7d " ++
    "int h(A o) \x7b A.s = 1; return this.f + o.f + g(); \x7d \x7d").toList

theorem accessText_controlled : ∃ p c t, Program.ofText? accessText = .ok p ∧
    (p.start false).resolve = (c, t, .ok ()) ∧ c.log.isClean ∧
    ∃ (k : Nat) (b : ClassDecl) (site : Site) (m : MethodDecl),
      p.classes[k]? = some b ∧ (site, m) ∈ b.sitedMethods (.classAt k) ∧
      (m.links (b.ref (.classAt k)) site).length = 7 ∧
      (m.callees (b.ref (.classAt k)) site).length = 1 ∧
      ((∀ l ∈ m.links (b.ref (.classAt k)) site,
        l.2.Accessible p (b.ref (.classAt k)) m.head.isStatic c.bindings.get? l.1) ∧
      ∀ l ∈ m.callees (b.ref (.classAt k)) site,
        (∀ d, c.bindings.get? l.1 = some d → d.isMethod) ∧
          ((∀ l' ∈ l.2.links l.1, ¬ Forward c.bindings.get? l') →
            (c.bindings.get? l.1).isSome)) := by
  obtain ⟨p, c, t, parsed, resolved, clean, sizes⟩ := exists_resolved_of_check accessText
    (P := fun p _ => p.sitedClasses.any fun b => (b.2.sitedMethods b.1).any fun m =>
      (m.2.links (b.2.ref b.1) m.1).length = 7 && (m.2.callees (b.2.ref b.1) m.1).length = 1)
    (by decide +kernel)
  obtain ⟨⟨cls, b⟩, hb, sizes⟩ := List.any_eq_true.mp sizes
  obtain ⟨⟨site, m⟩, hm, sizes⟩ := List.any_eq_true.mp sizes
  obtain ⟨k, hk, rfl⟩ := Program.mem_sitedClasses.mp hb
  simp only [Bool.and_eq_true, decide_eq_true_eq] at sizes
  exact ⟨p, c, t, parsed, resolved, clean, k, b, site, m, hk, hm, sizes.1, sizes.2,
    access_controlled resolved clean hk hm⟩

end JamCompiler

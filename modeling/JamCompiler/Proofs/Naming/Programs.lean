import JamCompiler.Proofs.Naming.Methods
import JamCompiler.Proofs.Naming.Registries

/-!
# Resolving programs

Resolution of a program ends without an error exactly if classes and members can be told apart and
every use in every class is without fault, and then every name is bound to what it means, or to
nothing where it is open.

What is known when a class is resolved is `Program.globals`: all classes and members, but of the
types of fields only those of this class and of the classes before it. The invariant of the walk
over the classes, `AtClass`, says just this of the bindings made so far.
-/

namespace JamCompiler

open Pass

/-- The type of a declaration as written, where names mean the classes given. -/
def Decl.typeIn (classes : String → Option ClassRef) : Decl → ValueType
  | .cls ref => .ofClass ref
  | .field .predefined d => d.type.predefinedView
  | .field (.user _) d => d.type.typeIn classes
  | .method .predefined head => head.result.predefinedView
  | .method (.user _) head => head.result.typeIn classes
  | .param _ d => d.type.typeIn classes
  | .var _ d => d.type.typeIn classes

namespace Program

/-- What a name means as the name of a class. -/
def classNamed (p : Program) (name : String) : Option ClassRef := p.classPairs.lookup name

/-- Whether a declaration is a field of a class after the `k`th. -/
def isLater (k : Nat) : Decl → Bool
  | .field (.user site) _ => k < site.classNumber
  | _ => false

/-- What is known when the `k`th class is resolved: nothing yet of the classes that the types of
later fields name. -/
def globals (p : Program) (k : Nat) : Globals where
  classes := p.classNamed
  members c name := p.memberPairs.lookup (c, name)
  typeOf d := d.typeIn (if isLater k d then fun _ => none else p.classNamed)

theorem globals_regular (p : Program) (k : Nat) : (p.globals k).Regular :=
  ⟨fun _ _ => rfl, fun _ _ => rfl⟩

end Program

/-- A type below which nothing is bound names no known class. -/
theorem TypeExpr.view_of_free {bound : Site → Option Decl} {site : Site} {t : TypeExpr}
    (free : ∀ s, site <:+ s → bound s = none) : t.view bound site = t.typeIn fun _ => none := by
  induction t generalizing site with
  | base | unknown => rfl
  | named name pos =>
    have name := free site.className (site.suffix_child 0)
    simp only [view, typeIn, name]
  | array element pos ih =>
    have inner : element.view bound site.element = element.typeIn fun _ => none :=
      ih fun s hs => free s ((site.suffix_child 0).trans hs)
    simp only [view, typeIn, inner]

namespace ClassDecl

variable {c : ClassDecl} {site : Site} {d : Decl}

theorem mem_members : d ∈ c.members site ↔
    (∃ i f, c.fields[i]? = some f ∧ d = .field (.user (site.field i)) f) ∨
      ∃ i m, c.methods[i]? = some m ∧ d = .method (.user (site.method i)) m.head := by
  rw [(c.members_perm site).mem_iff, List.mem_append]
  simp only [fieldDecls, methodDecls, List.mem_iff_getElem?, List.getElem?_mapIdx,
    Option.map_eq_some_iff]
  constructor
  · rintro (⟨i, f, h, rfl⟩ | ⟨i, m, h, rfl⟩)
    · exact .inl ⟨i, f, h, rfl⟩
    · exact .inr ⟨i, m, h, rfl⟩
  · rintro (⟨i, f, h, rfl⟩ | ⟨i, m, h, rfl⟩)
    · exact .inl ⟨i, f, h, rfl⟩
    · exact .inr ⟨i, m, h, rfl⟩

theorem mem_fieldUses {fields : List FieldDecl} (cls : Site) (k : Nat) {i : Nat} {f : FieldDecl}
    (h : fields[i]? = some f) :
    Use.type (cls.field (k + i)).type f.type ∈ fieldUses cls k fields := by
  induction fields generalizing k i with
  | nil => simp at h
  | cons e rest ih =>
    cases i with
    | zero =>
      cases h
      exact List.mem_cons_self
    | succ i =>
      have later := ih (k + 1) h
      rw [Nat.add_assoc, Nat.add_comm 1 i] at later
      exact List.mem_cons_of_mem _ later

end ClassDecl

namespace Program

variable {p : Program} {k : Nat} {d : Decl}

/-- Whether the types of the fields of a class stand for what is written. -/
def FieldsKnown (p : Program) (bound : Site → Option Decl) (j : Nat) : Prop :=
  ∀ c : ClassDecl, p.classes[j]? = some c → ∀ i (f : FieldDecl), c.fields[i]? = some f →
    f.type.view bound ((Site.classAt j).field i).type = f.type.typeIn p.classNamed

theorem classNumber_field (j i : Nat) : ((Site.classAt j).field i).classNumber = j :=
  Site.classNumber_of_suffix (Site.suffix_item _ _ _)

/-- What can stand before a dot outside a method: a predefined field, or a field of a class. -/
theorem owner_cases (h : (p.globals k).Owner [] d) :
    (d = Predefined.out ∨ d = Predefined.length) ∨
      ∃ j, ∃ c : ClassDecl, ∃ i f, p.classes[j]? = some c ∧
      c.fields[i]? = some f ∧ d = .field (.user ((Site.classAt j).field i)) f := by
  obtain ⟨data, ⟨name, found⟩ | ⟨c, name, found⟩ | rfl⟩ := h
  · cases found
  · have member := mem_of_lookup found
    rcases member_cases member with ⟨-, rfl | rfl⟩ | ⟨j, c, hj, hd, -⟩
    · cases data
    · exact .inl (.inl rfl)
    · rcases ClassDecl.mem_members.mp hd with ⟨i, f, hf, rfl⟩ | ⟨i, m, hm, rfl⟩
      · exact .inr ⟨j, c, i, f, hj, hf, rfl⟩
      · cases data
  · exact .inl (.inr rfl)

/-- Where the fields of a class and those before it are known and nothing is bound in the classes
after it, the types of what can stand before a dot are as `globals` says. -/
theorem typeOf_of_known {bindings : SiteMap Decl}
    (known : ∀ j, j ≤ k → p.FieldsKnown bindings.get? j)
    (free : ∀ j, k < j → bindings.Free (Site.classAt j).below)
    (h : (p.globals k).Owner [] d) : d.type bindings.get? = (p.globals k).typeOf d := by
  rcases owner_cases h with (rfl | rfl) | ⟨j, c, i, f, hj, hf, rfl⟩
  · rfl
  · rfl
  · simp only [Program.globals, isLater, classNumber_field, decide_eq_true_eq]
    split
    · rename_i later
      refine TypeExpr.view_of_free fun s hs => free j later s ?_
      exact ((Site.suffix_item _ _ _).trans (Site.suffix_child _ 0)).trans hs
    · rename_i notLater
      exact known j (Nat.not_lt.mp notLater) c hj i f hf

theorem owner_apart (h : (p.globals k).Owner [] d) (home : Site) (hh : d.home = .user home) :
    home.below.Apart ((Site.classAt k).itemsFrom 1 0) := by
  rcases owner_cases h with (rfl | rfl) | ⟨j, c, i, f, hj, hf, rfl⟩
  · cases hh
  · cases hh
  · cases hh
    by_cases same : j = k
    · subst same
      exact (Site.child_apart_items (by decide)).mono
        (Site.below_sub (Site.child_suffix_item _ _ _)) (.refl _)
    · exact (Site.apart_classAt same).below.mono (Site.below_sub (Site.suffix_item _ _ _))
        (Site.itemsFrom_sub _ _ _)

/-- The table while the members of a class are entered. -/
def memberTable (p : Program) (scope : Scope) : ScopeTable :=
  { p.table with inner := scope :: p.table.inner }

theorem enter_memberTable {scope : Scope} (fresh : d.name ∉ scope.map Prod.fst) :
    (p.memberTable scope).enter? d = .ok (p.memberTable ((d.name, d) :: scope)) := by
  rw [← lookup_eq_none_iff_not_mem] at fresh
  simp [ScopeTable.enter?, ScopeTable.holds, ScopeTable.current, ScopeTable.enclosingLocals,
    memberTable, table, ScopeTable.level, ScopeTable.paramLevel, fresh]

theorem Collectable.retrieveClass (ok : p.Collectable) (name : String) :
    p.table.retrieveClass? name = p.classNamed name :=
  lookup_reverse ok.classes

theorem Collectable.retrieveMember (ok : p.Collectable) (c name : String) :
    p.table.retrieveMember? c name = p.memberPairs.lookup (c, name) :=
  lookup_reverse ok.members

/-- The scope of the members of a class. -/
def memberScope (c : ClassDecl) (k : Nat) : Scope :=
  ((c.members (.classAt k)).map fun d => (d.name, d)).reverse

theorem Collectable.lookup_memberScope (ok : p.Collectable) {c : ClassDecl}
    (h : p.classes[k]? = some c) (name : String) :
    (memberScope c k).lookup name = p.memberPairs.lookup (c.name, name) := by
  have keys : (((c.members (.classAt k)).map fun d => (d.name, d)).map Prod.fst).Nodup := by
    rw [List.map_map]
    exact ok.members_distinct h
  rw [memberScope, lookup_reverse keys]
  apply Option.ext
  intro d
  rw [ok.lookup_member h, lookup_eq_some_iff_mem keys, List.mem_map]
  constructor
  · rintro ⟨e, he, same⟩
    cases same
    exact ⟨he, rfl⟩
  · rintro ⟨hd, rfl⟩
    exact ⟨d, hd, rfl⟩

/-- Among the members of a class a name means a member, or else a class. -/
theorem Collectable.retrieve_memberTable (ok : p.Collectable) {c : ClassDecl}
    (h : p.classes[k]? = some c) (name : String) :
    (p.memberTable (memberScope c k)).retrieve? name =
      (p.memberPairs.lookup (c.name, name)).or ((p.classNamed name).map .cls) := by
  have classes : (p.classPairs.map fun q => (q.1, Decl.cls q.2)).reverse =
      (p.sitedClasses.map fun c => (c.2.name, Decl.cls (c.2.ref c.1))).reverse ++
        (Predefined.classes.map fun c => (c.name, Decl.cls c)).reverse := by
    simp only [classPairs, List.map_append, List.map_map, List.reverse_append]
    rfl
  have keys : ((p.classPairs.map fun q => (q.1, Decl.cls q.2)).map Prod.fst).Nodup := by
    rw [List.map_map]
    exact ok.classes
  have scopes : (p.memberTable (memberScope c k)).retrieve? name = (memberScope c k ++
      ((p.sitedClasses.map fun c => (c.2.name, Decl.cls (c.2.ref c.1))).reverse ++
        (Predefined.classes.map fun c => (c.name, Decl.cls c)).reverse)).lookup name := by
    rw [ScopeTable.retrieve?, ← lookup_flatten]
    simp [memberTable, table]
  rw [scopes, ← classes, List.lookup_append, ok.lookup_memberScope h, lookup_reverse keys,
    lookup_map_snd]
  rfl

end Program

namespace Resolving

variable {p : Program} {k : Nat} {n : Naming}

theorem run_enterMembers {cls : String} (ds : List Decl) {scope : Scope} {bindings : SiteMap Decl}
    (registered : ∀ d ∈ ds, p.table.retrieveMember? cls d.name = some d)
    (distinct : (ds.map Decl.name).Nodup) (fresh : ∀ d ∈ ds, d.name ∉ scope.map Prod.fst) :
    EStateM.run (ds.forM fun d => do
        if (← table).retrieveMember? cls d.name = some d then
          let _ ← enter d d.pos) (strict ⟨p.memberTable scope, bindings⟩) =
      .ok () (strict
        ⟨p.memberTable ((ds.map fun d => (d.name, d)).reverse ++ scope), bindings⟩) := by
  induction ds generalizing scope with
  | nil => rfl
  | cons d rest ih =>
    obtain ⟨apart, distinct⟩ := List.nodup_cons.mp distinct
    have first : EStateM.run (do
        if (← table).retrieveMember? cls d.name = some d then
          let _ ← enter d d.pos) (strict ⟨p.memberTable scope, bindings⟩) =
        .ok () (strict ⟨p.memberTable ((d.name, d) :: scope), bindings⟩) := by
      have known : (p.memberTable scope).retrieveMember? cls d.name = some d :=
        registered d List.mem_cons_self
      have entered := Program.enter_memberTable (p := p) (fresh d List.mem_cons_self)
      have run : EStateM.run (enter d d.pos) (strict ⟨p.memberTable scope, bindings⟩) =
          .ok true (strict ⟨p.memberTable ((d.name, d) :: scope), bindings⟩) :=
        run_enter_ok entered d.pos
      rw [EStateM.run_bind, run_table]
      simp only [strict, known, if_true]
      exact (EStateM.run_bind ..).trans (by rw [← strict, run]; rfl)
    have fresh' : ∀ e ∈ rest, e.name ∉ ((d.name, d) :: scope).map Prod.fst := by
      intro e he
      rw [List.map_cons, List.mem_cons, not_or]
      refine ⟨fun same => apart ?_, fresh e (List.mem_cons_of_mem _ he)⟩
      exact List.mem_map.mpr ⟨e, he, same⟩
    have last := ih (fun e he => registered e (List.mem_cons_of_mem _ he)) distinct fresh'
    rw [List.map_cons, List.reverse_cons, List.append_assoc]
    exact (EStateM.run_bind ..).trans (by rw [first]; exact last)

/-- The state of resolution when it comes to the `k`th class: the table is the one that collecting
left, the types of earlier fields are known, and nothing is bound from here on. -/
structure AtClass (p : Program) (k : Nat) (n : Naming) : Prop where
  table : n.table = p.table
  known : ∀ j, j < k → p.FieldsKnown n.bindings.get? j
  free : ∀ j, k ≤ j → n.bindings.Free (Site.classAt j).below

/-- Where the fields of the class are settled too, the types of fields are known up to this
class. -/
theorem AtClass.known_through (state : AtClass p k n) {c : ClassDecl} (h : p.classes[k]? = some c)
    {m : SiteMap Decl} {a : Region} (grown : SiteMap.Grown a n.bindings m)
    (sub : a.Sub (Site.classAt k).below)
    (bound : ∀ u ∈ ClassDecl.fieldUses (.classAt k) 0 c.fields, u.Bound (p.globals k) m.get?)
    (j : Nat) (hj : j ≤ k) : p.FieldsKnown m.get? j := by
  intro b hb i f hf
  rcases Nat.lt_or_eq_of_le hj with earlier | rfl
  · rw [← state.known j earlier b hb i f hf]
    refine TypeExpr.view_congr fun s hs => grown.same fun inside => ?_
    have home : Site.classAt j <:+ s :=
      ((Site.suffix_item _ _ _).trans (Site.suffix_child _ 0)).trans hs
    exact Site.apart_classAt (Nat.ne_of_lt earlier) s home (sub s inside)
  · cases h.symm.trans hb
    have use := bound _ (ClassDecl.mem_fieldUses (.classAt j) 0 hf)
    rw [Nat.zero_add] at use
    exact TypeExpr.view_of_bound use

theorem AtClass.inClass (ok : p.Collectable) (state : AtClass p k n) {c : ClassDecl}
    (h : p.classes[k]? = some c) {n' : Naming}
    (settled : Settles (p.globals k) (ClassDecl.fieldUses (.classAt k) 0 c.fields)
      ((Site.classAt k).itemsFrom 0 0)
      ⟨p.memberTable (Program.memberScope c k), n.bindings⟩ n') :
    InClass (p.globals k) (c.ref (.classAt k)) n' ((Site.classAt k).itemsFrom 1 0) where
  level := by
    rw [settled.table]
    rfl
  lookup := by
    intro name
    rw [settled.table]
    exact ok.retrieve_memberTable h name
  classes := by
    intro name
    rw [settled.table]
    exact ok.retrieveClass name
  members := by
    intro c name
    rw [settled.table]
    exact ok.retrieveMember c name
  typeOf := by
    intro d hd
    have known := state.known_through h settled.grown (Site.itemsFrom_sub _ _ _) settled.bound
    refine Program.typeOf_of_known known (fun j hj => ?_) hd
    refine (state.free j (Nat.le_of_lt hj)).grown settled.grown ?_
    exact (Site.apart_classAt (Nat.ne_of_gt hj)).below.mono (.refl _) (Site.itemsFrom_sub _ _ _)
  apart := fun d hd home hh => Program.owner_apart hd home hh
  free := by
    refine ((state.free k (Nat.le_refl k)).down (Site.itemsFrom_sub _ 1 0)).grown settled.grown ?_
    exact Site.lists_apart _ (by decide) 0 0

theorem resolveClass_resolves (ok : p.Collectable) (state : AtClass p k n) {c : ClassDecl}
    (h : p.classes[k]? = some c) :
    Resolves (p.globals k) (resolveClass (.classAt k) c) (c.uses (.classAt k))
      (Site.classAt k).below n := by
  let site := Site.classAt k
  let enterAll : Resolving Unit := (c.members site).forM fun d => do
    if (← table).retrieveMember? c.name d.name = some d then
      let _ ← enter d d.pos
  let methods : Resolving Unit := (c.sitedMethods site).forM fun m =>
    resolveMethodDecl (c.ref site) m.1 m.2
  have grouped : resolveClass site c =
      (do openScope; (do enterAll; resolveFields site 0 c.fields; methods); closeScope) := by
    simp only [resolveClass, enterAll, methods, bind_assoc]
  rw [grouped]
  refine scoped_resolves ?_
  have registered : ∀ d ∈ c.members site, p.table.retrieveMember? c.name d.name = some d :=
    fun d hd => (ok.retrieveMember _ _).trans ((ok.lookup_member h).mpr ⟨hd, rfl⟩)
  have entered : EStateM.run enterAll (strict (Naming.mk (p.memberTable []) n.bindings)) = _ :=
    run_enterMembers _ registered (ok.members_distinct h) (by simp)
  rw [List.append_nil] at entered
  have opened :
      ({ n with table := n.table.openScope } : Naming) = ⟨p.memberTable [], n.bindings⟩ := by
    rw [state.table]
    rfl
  rw [opened]
  have first : Decides enterAll ⟨p.memberTable [], n.bindings⟩ True
      fun _ n' => n' = ⟨p.memberTable (Program.memberScope c k), n.bindings⟩ :=
    Decides.ok () _ entered trivial rfl
  refine first.bind_of_imp (f := fun _ => do resolveFields site 0 c.fields; methods)
    (fun _ => trivial) ?_
  rintro - _ _ rfl
  have apart : (site.itemsFrom 0 0).Apart (site.itemsFrom 1 0) := site.lists_apart (by decide) 0 0
  have fields : Resolves (p.globals k) (resolveFields site 0 c.fields) _ (site.itemsFrom 0 0)
      ⟨p.memberTable (Program.memberScope c k), n.bindings⟩ :=
    resolveFields_resolves c.fields ok.retrieveClass
      ((state.free k (Nat.le_refl k)).down (site.itemsFrom_sub 0 0))
  have both : Resolves (p.globals k) (do resolveFields site 0 c.fields; methods) (c.uses site)
      site.below ⟨p.memberTable (Program.memberScope c k), n.bindings⟩ := by
    refine Resolves.seq fields ?_ apart (site.itemsFrom_sub 0 0) (site.itemsFrom_sub 1 0)
    intro _ n' settled
    have inside := state.inClass ok h settled
    have last := resolveMethods_resolves (p.globals_regular k) c.methods (k := 0) inside
    simp only [Nat.zero_add] at last
    exact last
  refine both.mono fun _ _ _ settled => ⟨p.memberTable (Program.memberScope c k), ?_, settled⟩
  exact ⟨rfl, by simp [Program.memberTable], rfl, rfl, rfl⟩

/-- The sites of the classes from the `k`th on. -/
def classesFrom (k : Nat) : Region := fun t => ∃ j, k ≤ j ∧ Site.classAt j <:+ t

theorem classAt_apart_classesFrom (k : Nat) :
    (Site.classAt k).below.Apart (classesFrom (k + 1)) := by
  rintro t ht ⟨j, hj, ht'⟩
  exact Site.apart_classAt (by omega) t ht ht'

/-- What was settled in a class leaves the state ready for the next one. -/
theorem AtClass.next (state : AtClass p k n) {c : ClassDecl} (h : p.classes[k]? = some c)
    {n' : Naming}
    (settled : Settles (p.globals k) (c.uses (.classAt k)) (Site.classAt k).below n n') :
    AtClass p (k + 1) n' where
  table := settled.table.trans state.table
  known j hj := state.known_through h settled.grown (.refl _)
    (fun u hu => settled.bound u (List.mem_append_left _ hu)) j (Nat.le_of_lt_succ hj)
  free := by
    intro j hj
    refine (state.free j (Nat.le_of_succ_le hj)).grown settled.grown ?_
    exact (Site.apart_classAt (by omega)).below

theorem resolveClasses_decides (ok : p.Collectable) (cs : List ClassDecl)
    (here : ∀ (i : Nat) c, cs[i]? = some c → p.classes[k + i]? = some c) (state : AtClass p k n) :
    Decides ((cs.mapIdx fun i c => (Site.classAt (k + i), c)).forM fun (site, c) =>
        resolveClass site c) n
      (∀ (i : Nat) c, cs[i]? = some c → ∀ u ∈ c.uses (.classAt (k + i)),
        u.Ok (p.globals (k + i)))
      fun _ n' => n.bindings.Grown (classesFrom k) n'.bindings ∧ ∀ (i : Nat) c, cs[i]? = some c →
        ∀ u ∈ c.uses (.classAt (k + i)), u.Within (Site.classAt (k + i)).below ∧
          u.Bound (p.globals (k + i)) n'.bindings.get? := by
  induction cs generalizing n k with
  | nil => exact Decides.ok () n rfl (by simp) ⟨.refl _ _, by simp⟩
  | cons c rest ih =>
    have first := resolveClass_resolves ok state (here 0 c rfl)
    rw [mapIdx_cons_from fun i c => (Site.classAt i, c)]
    have split : ∀ (P : Nat → ClassDecl → Prop),
        (∀ i b, (c :: rest)[i]? = some b → P (k + i) b) ↔
          P k c ∧ ∀ i b, rest[i]? = some b → P (k + 1 + i) b := by
      intro P
      constructor
      · intro h
        refine ⟨h 0 c rfl, fun i b hi => ?_⟩
        rw [Nat.add_assoc, Nat.add_comm 1 i]
        exact h (i + 1) b hi
      · rintro ⟨h, h'⟩ i b hi
        cases i with
        | zero =>
          cases hi
          exact h
        | succ i =>
          have later := h' i b hi
          rwa [Nat.add_assoc, Nat.add_comm 1 i] at later
    have both := first.bind (f := fun _ => (rest.mapIdx fun i c =>
        (Site.classAt (k + 1 + i), c)).forM fun (site, c) => resolveClass site c)
      (d := ∀ (i : Nat) b, rest[i]? = some b → ∀ u ∈ b.uses (.classAt (k + 1 + i)),
        u.Ok (p.globals (k + 1 + i)))
      (Q := fun _ n' => n.bindings.Grown (classesFrom k) n'.bindings ∧ ∀ (i : Nat) b,
        (c :: rest)[i]? = some b → ∀ u ∈ b.uses (.classAt (k + i)),
          u.Within (Site.classAt (k + i)).below ∧
            u.Bound (p.globals (k + i)) n'.bindings.get?) ?_
    · refine both.congr ?_
      exact (split fun j b => ∀ u ∈ b.uses (.classAt j), u.Ok (p.globals j)).symm
    · rintro - - n' settled
      have later : ∀ (i : Nat) b, rest[i]? = some b → p.classes[k + 1 + i]? = some b := by
        intro i b hi
        rw [Nat.add_assoc, Nat.add_comm 1 i]
        exact here (i + 1) b hi
      refine (ih later (state.next (here 0 c rfl) settled)).mono ?_
      rintro - - n'' ⟨grown, bound⟩
      refine ⟨?_, (split fun j b => ∀ u ∈ b.uses (.classAt j),
        u.Within (Site.classAt j).below ∧ u.Bound (p.globals j) _).mpr
          ⟨fun u hu => ⟨settled.within u hu, ?_⟩, bound⟩⟩
      · have now : (Site.classAt k).below.Sub (classesFrom k) := fun t ht => ⟨k, Nat.le_refl k, ht⟩
        have after : (classesFrom (k + 1)).Sub (classesFrom k) :=
          fun t ⟨j, hj, ht⟩ => ⟨j, Nat.le_of_succ_le hj, ht⟩
        exact (settled.grown.up now).trans (grown.up after)
      · exact (settled.bound u hu).congr (settled.within u hu) fun t ht =>
          grown.same (classAt_apart_classesFrom k t ht)

end Resolving

namespace Program

/-- A program whose names can be resolved: classes and members can be told apart, and every use is
without fault. -/
structure Resolvable (p : Program) : Prop where
  collectable : p.Collectable
  ok : ∀ (k : Nat) c, p.classes[k]? = some c → ∀ u ∈ c.uses (.classAt k), u.Ok (p.globals k)

/-- Every name of a program is bound to what it means, or to nothing where it is open. -/
structure Settled (p : Program) (bound : Site → Option Decl) : Prop where
  within : ∀ (k : Nat) c, p.classes[k]? = some c →
    ∀ u ∈ c.uses (.classAt k), u.Within (Site.classAt k).below
  bound : ∀ (k : Nat) c, p.classes[k]? = some c →
    ∀ u ∈ c.uses (.classAt k), u.Bound (p.globals k) bound

theorem Collectable.registered {p : Program} (ok : p.Collectable) :
    p.registered p.table = p.sitedClasses := by
  refine List.filter_eq_self.mpr fun s hs => ?_
  obtain ⟨k, hk, site⟩ := mem_sitedClasses.mp hs
  rw [decide_eq_true_eq, ok.retrieveClass, site]
  exact ok.lookup_class hk

end Program

/-- Resolution ends without an error exactly for the programs that can be resolved. -/
theorem Resolving.resolve_decides (p : Program) :
    Decides (resolve p) {} p.Resolvable fun _ n' => p.Settled n'.bindings.get? := by
  have first := collect_decides p {}
  have both := first.bind (f := fun _ => do
      let t ← table
      (p.registered t).forM fun (site, c) => resolveClass site c)
    (d := ∀ (k : Nat) c, p.classes[k]? = some c → ∀ u ∈ c.uses (.classAt k), u.Ok (p.globals k))
    (Q := fun _ n' => p.Settled n'.bindings.get?) ?_
  · exact both.congr ⟨fun h => ⟨h.1, h.2⟩, fun h => ⟨h.collectable, h.ok⟩⟩
  · rintro ok _ _ rfl
    have start : AtClass p 0 ⟨p.table, {}⟩ :=
      ⟨rfl, fun j hj => absurd hj (Nat.not_lt_zero j), fun _ _ _ _ => rfl⟩
    have all := resolveClasses_decides ok p.classes (fun i c h => by rwa [Nat.zero_add]) start
    simp only [Nat.zero_add] at all
    have known : Decides table ⟨p.table, {}⟩ True
        fun t n' => t = p.table ∧ n' = (⟨p.table, {}⟩ : Naming) :=
      Decides.ok p.table _ rfl trivial ⟨rfl, rfl⟩
    refine known.bind_of_imp (fun _ => trivial) ?_
    rintro - _ _ ⟨rfl, rfl⟩
    rw [ok.registered]
    exact all.mono fun _ _ _ ⟨_, h⟩ =>
      ⟨fun k c hk u hu => (h k c hk u hu).1, fun k c hk u hu => (h k c hk u hu).2⟩

end JamCompiler

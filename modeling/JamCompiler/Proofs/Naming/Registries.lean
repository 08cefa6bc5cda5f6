import JamCompiler.Proofs.Naming.References
import Mathlib.Data.List.Nodup

/-!
# Registries

What collecting the classes and members of a program leaves behind. It ends cleanly exactly if no
two classes have the same name, the predefined ones included, and no two members of one class. Then
the registries are the two lists below, the latest entry first, so what a name means in them can be
read off the program.
-/

namespace JamCompiler

open Pass

/-- Members of a class under its name and theirs. -/
def ClassRef.memberPairs (c : ClassRef) (members : List Decl) : List ((String × String) × Decl) :=
  members.map fun d => ((c.name, d.name), d)

namespace Program

/-- The classes of a program under their names, those predefined first. -/
def classPairs (p : Program) : List (String × ClassRef) :=
  Predefined.classes.map (fun c => (c.name, c)) ++
    p.sitedClasses.map fun c => (c.2.name, c.2.ref c.1)

/-- The members of all classes under the names of their classes and their own. -/
def memberPairs (p : Program) : List ((String × String) × Decl) :=
  Predefined.classes.flatMap (fun c => c.memberPairs (Predefined.members c)) ++
    p.sitedClasses.flatMap fun c => (c.2.ref c.1).memberPairs (c.2.members c.1)

/-- Classes and members can be told apart by their names. -/
structure Collectable (p : Program) : Prop where
  classes : (p.classPairs.map Prod.fst).Nodup
  members : (p.memberPairs.map Prod.fst).Nodup

/-- The table that collecting leaves. -/
def table (p : Program) : ScopeTable where
  predefined := (Predefined.classes.map fun c => (c.name, .cls c)).reverse
  inner := [(p.sitedClasses.map fun c => (c.2.name, .cls (c.2.ref c.1))).reverse]
  classes := p.classPairs.reverse
  members := p.memberPairs.reverse

end Program

/-- A key with no value stands in no list of keys. -/
theorem lookup_eq_none_iff_not_mem {κ ν : Type} [BEq κ] [LawfulBEq κ] {l : List (κ × ν)} {k : κ} :
    l.lookup k = none ↔ k ∉ l.map Prod.fst := by
  induction l with
  | nil => simp
  | cons p rest ih =>
    by_cases same : k = p.1
    · simp [same]
    · rw [lookup_cons_of_ne same, ih]
      simp [same]

namespace Resolving

variable {n : Naming}

theorem registerMember_decides (c : ClassRef) (d : Decl) :
    Decides (registerMember c d) n ((c.name, d.name) ∉ n.table.members.map Prod.fst) fun _ n' =>
      n' = { n with table :=
        { n.table with members := ((c.name, d.name), d) :: n.table.members } } := by
  rw [← lookup_eq_none_iff_not_mem]
  cases found : n.table.members.lookup (c.name, d.name) with
  | none =>
    have known : n.table.registerMember? c d =
        .ok { n.table with members := ((c.name, d.name), d) :: n.table.members } := by
      rw [ScopeTable.registerMember?, ScopeTable.retrieveMember?, found]
    exact Decides.ok true _ (run_registerMember_ok known) rfl rfl
  | some previous =>
    have known : n.table.registerMember? c d = .error previous := by
      rw [ScopeTable.registerMember?, ScopeTable.retrieveMember?, found]
    refine Decides.error ?_ (by simp)
    rw [run_registerMember_error known, EStateM.run_bind, run_note]
    dsimp only
    rw [EStateM.run_bind, reportName, run_report]
    exact ⟨_, _, rfl⟩

theorem registerMembers_decides (c : ClassRef) (members : List Decl)
    (distinct : (n.table.members.map Prod.fst).Nodup) :
    Decides (registerMembers c members) n
      (((c.memberPairs members).reverse ++ n.table.members).map Prod.fst).Nodup fun _ n' =>
        n' = { n with table := { n.table with
          members := (c.memberPairs members).reverse ++ n.table.members } } := by
  unfold registerMembers
  induction members generalizing n with
  | nil => exact Decides.ok () n rfl distinct rfl
  | cons d rest ih =>
    have key : (((c.memberPairs (d :: rest)).reverse ++ n.table.members).map Prod.fst) =
        (((c.memberPairs rest).reverse ++ ((c.name, d.name), d) :: n.table.members).map
          Prod.fst) := by
      simp [ClassRef.memberPairs]
    have fresh : (((c.memberPairs (d :: rest)).reverse ++ n.table.members).map Prod.fst).Nodup →
        (c.name, d.name) ∉ n.table.members.map Prod.fst := by
      rw [key, List.map_append, List.nodup_append]
      intro h
      exact (List.nodup_cons.mp h.2.1).1
    refine (registerMember_decides c d).discard.bind_of_imp
      (f := fun _ => rest.forM fun d => do let _ ← registerMember c d) fresh ?_
    rintro free _ n' rfl
    refine ((ih ?_).mono ?_).congr (by rw [key])
    · exact List.nodup_cons.mpr ⟨free, distinct⟩
    · rintro - - n' rfl
      simp [ClassRef.memberPairs]

theorem registerClass_decides (c : ClassRef) :
    Decides (registerClass c) n (c.name ∉ n.table.classes.map Prod.fst) fun done n' =>
      done = true ∧
        n' = { n with table := { n.table with classes := (c.name, c) :: n.table.classes } } := by
  rw [← lookup_eq_none_iff_not_mem]
  cases found : n.table.classes.lookup c.name with
  | none =>
    have known : n.table.registerClass? c =
        .ok { n.table with classes := (c.name, c) :: n.table.classes } := by
      rw [ScopeTable.registerClass?, ScopeTable.retrieveClass?, found]
    exact Decides.ok true _ (run_registerClass_ok known) rfl ⟨rfl, rfl⟩
  | some previous =>
    have known : ∃ fault, n.table.registerClass? c = .error fault := by
      rw [ScopeTable.registerClass?, ScopeTable.retrieveClass?, found]
      exact ⟨_, rfl⟩
    obtain ⟨fault, known⟩ := known
    refine Decides.error ?_ (by simp)
    rw [run_registerClass_error known]
    exact (Answers.report _ _ n).bind_none

/-- The state while classes are collected. -/
def collecting (predefined scope : Scope) (classes : List (String × ClassRef))
    (members : List ((String × String) × Decl)) (bindings : SiteMap Decl) : Naming :=
  ⟨⟨predefined, [scope], classes, members⟩, bindings⟩

variable {predefined scope : Scope} {classes : List (String × ClassRef)}
variable {members : List ((String × String) × Decl)} {bindings : SiteMap Decl}

theorem run_enter_collecting {d : Decl} (free : d.name ∉ scope.map Prod.fst) (pos : Nat) :
    EStateM.run (enter d pos) (strict (collecting predefined scope classes members bindings)) =
      .ok true
        (strict (collecting predefined ((d.name, d) :: scope) classes members bindings)) := by
  rw [← lookup_eq_none_iff_not_mem] at free
  have entered : (ScopeTable.mk predefined [scope] classes members).enter? d =
      .ok ⟨predefined, [(d.name, d) :: scope], classes, members⟩ := by
    simp [ScopeTable.enter?, ScopeTable.holds, ScopeTable.current, ScopeTable.enclosingLocals, free]
  exact run_enter_ok entered pos

/-- Classes whose names differ from those before them and whose members have names that differ. -/
theorem collectClass_decides (c : Site × ClassDecl) (distinct : (members.map Prod.fst).Nodup)
    (known : ∀ name ∈ scope.map Prod.fst, name ∈ classes.map Prod.fst) :
    Decides (collectClass c.1 c.2) (collecting predefined scope classes members bindings)
      (c.2.name ∉ classes.map Prod.fst ∧
        (((c.2.ref c.1).memberPairs (c.2.members c.1)).reverse ++ members |>.map Prod.fst).Nodup)
      fun _ n' => n' = collecting predefined ((c.2.name, .cls (c.2.ref c.1)) :: scope)
        ((c.2.name, c.2.ref c.1) :: classes)
        (((c.2.ref c.1).memberPairs (c.2.members c.1)).reverse ++ members) bindings := by
  obtain ⟨site, c⟩ := c
  refine (registerClass_decides (c.ref site)).bind ?_
  rintro fresh _ _ ⟨rfl, rfl⟩
  have free : (Decl.cls (c.ref site)).name ∉ scope.map Prod.fst := fun h => fresh (known _ h)
  have entered : EStateM.run (enter (.cls (c.ref site)) c.pos)
      (strict (collecting predefined scope ((c.name, c.ref site) :: classes) members bindings)) =
        _ :=
    run_enter_collecting free c.pos
  have last := registerMembers_decides (n := collecting predefined
    ((c.name, .cls (c.ref site)) :: scope) ((c.name, c.ref site) :: classes) members bindings)
    (c.ref site) (c.members site) distinct
  have first : Decides (enter (.cls (c.ref site)) c.pos)
      (collecting predefined scope ((c.name, c.ref site) :: classes) members bindings) True
      fun _ n' => n' = collecting predefined ((c.name, .cls (c.ref site)) :: scope)
        ((c.name, c.ref site) :: classes) members bindings :=
    Decides.ok true _ entered trivial rfl
  refine first.bind_of_imp (f := fun _ => registerMembers (c.ref site) (c.members site))
    (fun _ => trivial) ?_
  rintro - _ _ rfl
  exact last

/-- All classes of a list, when some are collected already. -/
theorem collectClasses_decides (cs : List (Site × ClassDecl))
    (distinct : (classes.map Prod.fst).Nodup) (distinct' : (members.map Prod.fst).Nodup)
    (known : ∀ name ∈ scope.map Prod.fst, name ∈ classes.map Prod.fst) :
    Decides (cs.forM fun (site, c) => collectClass site c)
      (collecting predefined scope classes members bindings)
      ((((cs.map fun c => (c.2.name, c.2.ref c.1)).reverse ++ classes).map Prod.fst).Nodup ∧
        (((cs.flatMap fun c => (c.2.ref c.1).memberPairs (c.2.members c.1)).reverse ++
          members).map Prod.fst).Nodup)
      fun _ n' => n' = collecting predefined
        ((cs.map fun c => (c.2.name, .cls (c.2.ref c.1))).reverse ++ scope)
        ((cs.map fun c => (c.2.name, c.2.ref c.1)).reverse ++ classes)
        ((cs.flatMap fun c => (c.2.ref c.1).memberPairs (c.2.members c.1)).reverse ++ members)
        bindings := by
  induction cs generalizing scope classes members with
  | nil => exact Decides.ok () _ rfl ⟨distinct, distinct'⟩ rfl
  | cons c rest ih =>
    let own := (c.2.ref c.1).memberPairs (c.2.members c.1)
    have classKeys : ((((c :: rest).map fun c => (c.2.name, c.2.ref c.1)).reverse ++ classes).map
        Prod.fst) = (((rest.map fun c => (c.2.name, c.2.ref c.1)).reverse ++
          (c.2.name, c.2.ref c.1) :: classes).map Prod.fst) := by simp
    have memberKeys : ((((c :: rest).flatMap fun c => (c.2.ref c.1).memberPairs
        (c.2.members c.1)).reverse ++ members).map Prod.fst) = (((rest.flatMap fun c =>
          (c.2.ref c.1).memberPairs (c.2.members c.1)).reverse ++
            (own.reverse ++ members)).map Prod.fst) := by simp [own]
    have first : ((((rest.map fun c => (c.2.name, c.2.ref c.1)).reverse ++
        (c.2.name, c.2.ref c.1) :: classes).map Prod.fst).Nodup ∧
        (((rest.flatMap fun c => (c.2.ref c.1).memberPairs (c.2.members c.1)).reverse ++
          (own.reverse ++ members)).map Prod.fst).Nodup) →
        c.2.name ∉ classes.map Prod.fst ∧ ((own.reverse ++ members).map Prod.fst).Nodup := by
      rintro ⟨hc, hm⟩
      rw [List.map_append, List.nodup_append] at hc hm
      exact ⟨(List.nodup_cons.mp hc.2.1).1, hm.2.1⟩
    have step : Decides (collectClass c.1 c.2)
        (collecting predefined scope classes members bindings) _ _ :=
      collectClass_decides c distinct' known
    rw [classKeys, memberKeys]
    refine step.bind_of_imp (f := fun _ => rest.forM fun (site, c) => collectClass site c) first ?_
    rintro ⟨fresh, fresh'⟩ _ _ rfl
    have known' : ∀ name ∈ ((c.2.name, Decl.cls (c.2.ref c.1)) :: scope).map Prod.fst,
        name ∈ ((c.2.name, c.2.ref c.1) :: classes).map Prod.fst := by
      intro name h
      rcases List.mem_cons.mp h with rfl | h
      · exact List.mem_cons_self
      · exact List.mem_cons_of_mem _ (known name h)
    have distinct₁ : ((((c.2.name, c.2.ref c.1) :: classes).map Prod.fst)).Nodup :=
      List.nodup_cons.mpr ⟨fresh, distinct⟩
    refine (ih distinct₁ fresh' known').mono ?_
    rintro - - _ rfl
    simp

/-- The state while what is predefined is collected, with no scope open. -/
def predefining (predefined : Scope) (classes : List (String × ClassRef))
    (members : List ((String × String) × Decl)) (bindings : SiteMap Decl) : Naming :=
  ⟨⟨predefined, [], classes, members⟩, bindings⟩

theorem run_enter_predefining {d : Decl} (free : d.name ∉ predefined.map Prod.fst) (pos : Nat) :
    EStateM.run (enter d pos) (strict (predefining predefined classes members bindings)) =
      .ok true (strict (predefining ((d.name, d) :: predefined) classes members bindings)) := by
  rw [← lookup_eq_none_iff_not_mem] at free
  have entered : (ScopeTable.mk predefined [] classes members).enter? d =
      .ok ⟨(d.name, d) :: predefined, [], classes, members⟩ := by
    simp [ScopeTable.enter?, ScopeTable.holds, ScopeTable.current, ScopeTable.enclosingLocals, free]
  exact run_enter_ok entered pos

theorem collectPredefined_decides (c : ClassRef) (free : c.name ∉ predefined.map Prod.fst)
    (distinct : (members.map Prod.fst).Nodup) :
    Decides (collectPredefined c) (predefining predefined classes members bindings)
      (c.name ∉ classes.map Prod.fst ∧
        (((c.memberPairs (Predefined.members c)).reverse ++ members).map Prod.fst).Nodup)
      fun _ n' => n' = predefining ((c.name, .cls c) :: predefined) ((c.name, c) :: classes)
        ((c.memberPairs (Predefined.members c)).reverse ++ members) bindings := by
  have entered : Decides (enter (.cls c) 0) (predefining predefined classes members bindings) True
      fun _ n' => n' = predefining ((c.name, .cls c) :: predefined) classes members bindings :=
    Decides.ok true _ (run_enter_predefining (d := .cls c) free 0) trivial rfl
  refine entered.bind_of_imp (f := fun _ => do
    let _ ← registerClass c
    registerMembers c (Predefined.members c)) (fun _ => trivial) ?_
  rintro - _ _ rfl
  refine (registerClass_decides c).bind ?_
  rintro - _ _ ⟨-, rfl⟩
  exact registerMembers_decides (n := predefining ((c.name, .cls c) :: predefined)
    ((c.name, c) :: classes) members bindings) c (Predefined.members c) distinct

/-- The predefined classes and members, whatever was bound before. Their names differ. -/
theorem collectPredefineds_decides (bindings : SiteMap Decl) :
    Decides (Predefined.classes.forM collectPredefined) ⟨{}, bindings⟩ True fun _ n' =>
      n' = predefining (Predefined.classes.map fun c => (c.name, .cls c)).reverse
        (Predefined.classes.map fun c => (c.name, c)).reverse
        (Predefined.classes.flatMap fun c => c.memberPairs (Predefined.members c)).reverse
        bindings := by
  have string : Decides (collectPredefined Predefined.string) (predefining [] [] [] bindings) _ _ :=
    collectPredefined_decides Predefined.string (by decide) (by decide)
  refine string.bind_of_imp (f := fun _ =>
    [Predefined.printStream, Predefined.system].forM collectPredefined)
    (fun _ => ⟨by decide, by decide⟩) ?_
  rintro - _ _ rfl
  refine (collectPredefined_decides Predefined.printStream (by decide) (by decide)).bind_of_imp
    (f := fun _ => [Predefined.system].forM collectPredefined) (fun _ => ⟨by decide, by decide⟩) ?_
  rintro - _ _ rfl
  refine (collectPredefined_decides Predefined.system (by decide) (by decide)).bind_of_imp
    (f := fun _ => pure ()) (fun _ => ⟨by decide, by decide⟩) ?_
  rintro - _ _ rfl
  exact Decides.pure rfl

theorem collect_decides (p : Program) (bindings : SiteMap Decl) :
    Decides (collect p) ⟨{}, bindings⟩ p.Collectable fun _ n' => n' = ⟨p.table, bindings⟩ := by
  refine (collectPredefineds_decides bindings).bind_of_imp (f := fun _ => do
    openScope
    p.sitedClasses.forM fun (site, c) => collectClass site c) (fun _ => trivial) ?_
  rintro - _ _ rfl
  refine Decides.bind_of_imp (c := True) (P := fun _ n' => n' = collecting
      (Predefined.classes.map fun c => (c.name, .cls c)).reverse []
      (Predefined.classes.map fun c => (c.name, c)).reverse
      (Predefined.classes.flatMap fun c => c.memberPairs (Predefined.members c)).reverse bindings)
    (Decides.ok () _ rfl trivial rfl) (fun _ => trivial) ?_
  rintro - _ _ rfl
  refine ((collectClasses_decides p.sitedClasses (by decide) (by decide) (by simp)).mono ?_).congr
    ?_
  · rintro - - _ rfl
    simp [collecting, Program.table, Program.classPairs, Program.memberPairs]
  · rw [← List.reverse_append, ← List.reverse_append, List.map_reverse, List.map_reverse,
      (List.reverse_perm _).nodup_iff, (List.reverse_perm _).nodup_iff]
    exact ⟨fun h => ⟨h.1, h.2⟩, fun h => ⟨h.classes, h.members⟩⟩

end Resolving

namespace Program

variable {p : Program} {k : Nat} {c : ClassDecl} {d : Decl} {name : String}
variable {key : String × String}

/-- The class registry knows each class of the program. -/
theorem Collectable.lookup_class (ok : p.Collectable) (h : p.classes[k]? = some c) :
    p.classPairs.lookup c.name = some (c.ref (.classAt k)) := by
  rw [lookup_eq_some_iff_mem ok.classes, classPairs, List.mem_append]
  exact .inr (List.mem_map.mpr ⟨(.classAt k, c), mem_sitedClasses.mpr ⟨k, h, rfl⟩, rfl⟩)

/-- A class of the program does not have the name of a predefined one. -/
theorem Collectable.not_predefined (ok : p.Collectable) (h : p.classes[k]? = some c) :
    c.name ∉ Predefined.classes.map ClassRef.name := by
  intro hmem
  obtain ⟨b, hb, same⟩ := List.mem_map.mp hmem
  have there : (c.name, b) ∈ p.classPairs :=
    List.mem_append.mpr (.inl (List.mem_map.mpr ⟨b, hb, by rw [same]⟩))
  have here := ok.lookup_class h
  rw [(lookup_eq_some_iff_mem ok.classes).mpr there] at here
  cases here
  simp [Predefined.classes, Predefined.string, Predefined.printStream, Predefined.system,
    ClassDecl.ref] at hb

theorem predefined_memberPairs :
    Predefined.classes.flatMap (fun c => c.memberPairs (Predefined.members c)) =
      [(("_PrintStream", "println"), Predefined.println), (("System", "out"), Predefined.out)] :=
  rfl

/-- Every declaration in the member registry is a member of some class. -/
theorem member_cases (h : (key, d) ∈ p.memberPairs) :
    key.1 ∈ Predefined.classes.map ClassRef.name ∧ (d = Predefined.println ∨ d = Predefined.out) ∨
      ∃ k, ∃ c : ClassDecl, p.classes[k]? = some c ∧ d ∈ c.members (.classAt k) ∧
        key = (c.name, d.name) := by
  rw [memberPairs, List.mem_append] at h
  rcases h with h | h
  · rw [predefined_memberPairs] at h
    simp only [List.mem_cons, Prod.mk.injEq, List.not_mem_nil, or_false] at h
    rcases h with ⟨rfl, rfl⟩ | ⟨rfl, rfl⟩
    · exact .inl ⟨by decide, .inl rfl⟩
    · exact .inl ⟨by decide, .inr rfl⟩
  · obtain ⟨⟨site, c⟩, hc, hd⟩ := List.mem_flatMap.mp h
    obtain ⟨k, hk, rfl⟩ := mem_sitedClasses.mp hc
    obtain ⟨e, he, same⟩ := List.mem_map.mp hd
    cases same
    exact .inr ⟨k, c, hk, he, rfl⟩

/-- The class of the predefined output has the one member that prints. -/
theorem Collectable.eq_println (ok : p.Collectable)
    (h : ((Predefined.printStream.name, name), d) ∈ p.memberPairs) : d = Predefined.println := by
  have registered := h
  rw [memberPairs, List.mem_append, predefined_memberPairs] at registered
  rcases registered with registered | user
  · simp only [List.mem_cons, Prod.mk.injEq, List.not_mem_nil, or_false] at registered
    rcases registered with ⟨-, rfl⟩ | ⟨⟨other, -⟩, -⟩
    · rfl
    · exact absurd other (by decide)
  · obtain ⟨⟨site, c⟩, hc, hd⟩ := List.mem_flatMap.mp user
    obtain ⟨k, hk, rfl⟩ := mem_sitedClasses.mp hc
    obtain ⟨e, he, same⟩ := List.mem_map.mp hd
    have own : c.name = Predefined.printStream.name := congrArg (fun q => q.1.1) same
    refine absurd ?_ (ok.not_predefined hk)
    rw [own]
    decide

theorem mem_memberPairs (h : p.classes[k]? = some c) (hd : d ∈ c.members (.classAt k)) :
    ((c.name, d.name), d) ∈ p.memberPairs := by
  refine List.mem_append.mpr (.inr (List.mem_flatMap.mpr ⟨(.classAt k, c), ?_, ?_⟩))
  · exact mem_sitedClasses.mpr ⟨k, h, rfl⟩
  · exact List.mem_map.mpr ⟨d, hd, rfl⟩

/-- Different classes of the program have different names. -/
theorem Collectable.class_unique (ok : p.Collectable) {j : Nat} {b : ClassDecl}
    (h : p.classes[k]? = some c) (hj : p.classes[j]? = some b) (same : b.name = c.name) :
    j = k := by
  have first := ok.lookup_class h
  have second := ok.lookup_class hj
  rw [same, first] at second
  have homes := congrArg (Option.map ClassRef.home) second
  have number : k = j := by simpa [ClassDecl.ref, Site.classAt] using homes
  exact number.symm

/-- The member registry knows the members of a class of the program. -/
theorem Collectable.lookup_member (ok : p.Collectable) (h : p.classes[k]? = some c) :
    p.memberPairs.lookup (c.name, name) = some d ↔ d ∈ c.members (.classAt k) ∧ d.name = name := by
  rw [lookup_eq_some_iff_mem ok.members]
  constructor
  · intro hd
    rcases member_cases hd with ⟨predefined, -⟩ | ⟨j, b, hj, hb, same⟩
    · exact absurd predefined (ok.not_predefined h)
    · simp only [Prod.mk.injEq] at same
      obtain rfl := ok.class_unique h hj same.1.symm
      rw [h] at hj
      cases hj
      exact ⟨hb, same.2.symm⟩
  · rintro ⟨hd, rfl⟩
    exact mem_memberPairs h hd

/-- The members of a class have different names. -/
theorem Collectable.members_distinct (ok : p.Collectable) (h : p.classes[k]? = some c) :
    ((c.members (.classAt k)).map Decl.name).Nodup := by
  have part : ((c.ref (.classAt k)).memberPairs (c.members (.classAt k))).Sublist
      p.memberPairs := by
    refine List.Sublist.trans ?_ (List.sublist_append_right _ _)
    rw [List.flatMap_def]
    exact List.sublist_flatten_of_mem
      (List.mem_map.mpr ⟨(.classAt k, c), mem_sitedClasses.mpr ⟨k, h, rfl⟩, rfl⟩)
  have keys := (part.map Prod.fst).nodup ok.members
  rw [ClassRef.memberPairs, List.map_map] at keys
  have names : (c.members (.classAt k)).map (Prod.fst ∘ fun d => ((c.name, d.name), d)) =
      ((c.members (.classAt k)).map Decl.name).map fun name => (c.name, name) := by
    rw [List.map_map]
    rfl
  exact List.Nodup.of_map _ (names ▸ keys)

end Program

end JamCompiler

import JamCompiler.Proofs.Language
import JamCompiler.Proofs.Naming.FirstDeclarations
import JamCompiler.Proofs.Naming.Programs
import JamCompiler.Proofs.Reading.Writing
import Mathlib.Data.List.Sort

/-!
# Collection

Which declarations win when names are declared more than once. A class name means the predefined
class of that name, or else the first class of the program; a member name in a registered class
means the member with the least position, whether field or method; and members of classes that are
not registered mean nothing. Everything that does not win is an error, and a member that does not is
shown together with the one that does.
-/

namespace JamCompiler

namespace ClassDecl

variable {c : ClassDecl} {ts : List Token}

theorem insertMember_eq (d : Decl) (ds : List Decl) :
    insertMember d ds = ds.orderedInsert (fun d e => d.pos ≤ e.pos) d := by
  induction ds with
  | nil => rfl
  | cons e ds ih => rw [insertMember, List.orderedInsert, ih]

/-- The members of a class are sorted by their positions. -/
theorem members_ordered (c : ClassDecl) (site : Site) :
    (c.members site).Pairwise fun d e => d.pos ≤ e.pos := by
  have total : Std.Total fun d e : Decl => d.pos ≤ e.pos := ⟨fun d e => Nat.le_total d.pos e.pos⟩
  have trans : IsTrans Decl fun d e => d.pos ≤ e.pos := ⟨fun _ _ _ => Nat.le_trans⟩
  have sorted := List.pairwise_insertionSort (fun d e : Decl => d.pos ≤ e.pos)
    (c.fieldDecls site ++ c.methodDecls site)
  have same : insertMember = List.orderedInsert fun d e => d.pos ≤ e.pos :=
    funext fun d => funext fun ds => insertMember_eq d ds
  rwa [members, same]

/-- The positions of a class's members are those of the fields and methods that it is written
with. -/
theorem members_positions (name : String) (ms : List Member) (pos : Nat) (site : Site) :
    (((ofMembers name ms pos).members site).map Decl.pos).Perm (ms.map Member.pos) := by
  have fields (fs : List FieldDecl) :
      (fs.mapIdx fun k f => Decl.field (.user (site.field k)) f).map Decl.pos =
        fs.map FieldDecl.pos :=
    List.ext_getElem (by simp) (by simp [Decl.pos])
  have methods (ds : List MethodDecl) :
      (ds.mapIdx fun k m => Decl.method (.user (site.method k)) m.head).map Decl.pos =
        ds.map (·.head.pos) :=
    List.ext_getElem (by simp) (by simp [Decl.pos])
  refine ((members_perm _ site).map Decl.pos).trans ?_
  rw [List.map_append, fieldDecls, methodDecls, fields, methods]
  induction ms with
  | nil => exact .nil
  | cons m ms ih =>
    cases m with
    | inl f => exact ih.cons f.pos
    | inr m => exact List.perm_middle.trans (ih.cons m.head.pos)

/-- Members that are written in the order of their positions are at different ones. -/
theorem members_sorted_ofMembers (name : String) {ms : List Member} (pos : Nat) (site : Site)
    (order : ms.Pairwise fun m m' => Member.pos m < Member.pos m') :
    ((ofMembers name ms pos).members site).Pairwise fun d e => d.pos < e.pos := by
  have distinct : ((ofMembers name ms pos).members site).Pairwise fun d e => d.pos ≠ e.pos := by
    rw [← List.pairwise_map]
    refine (members_positions name ms pos site).nodup_iff.mpr ?_
    exact List.pairwise_map.mpr (order.imp Nat.ne_of_lt)
  exact (members_ordered _ site).and distinct |>.imp fun h => Nat.lt_of_le_of_ne h.1 h.2

theorem Spelled.members_sorted (h : c.Spelled ts) (sorted : (ts.map Token.pos).Pairwise (· < ·))
    (site : Site) : (c.members site).Pairwise fun d e => d.pos < e.pos := by
  cases h with
  | @mk t n l name ms ts word cls left members =>
    refine members_sorted_ofMembers name n.pos site (members.sorted ?_)
    simpa using (((List.pairwise_cons.mp sorted).2).of_cons).of_cons

theorem SpelledAll.members_sorted {cs : List ClassDecl} (h : ClassDecl.SpelledAll cs ts)
    (sorted : (ts.map Token.pos).Pairwise (· < ·)) :
    ∀ c ∈ cs, ∀ site, (c.members site).Pairwise fun d e => d.pos < e.pos := by
  induction h with
  | done => exact nofun
  | more first _ ih =>
    rw [List.map_append, List.pairwise_append] at sorted
    exact List.forall_mem_cons.mpr ⟨first.members_sorted sorted.1, ih sorted.2.1⟩

end ClassDecl

/-- In a program that was read no two members of a class have one position. -/
theorem Program.members_sorted {text : List Char} {p : Program}
    (read : Program.ofText? text = .ok p) :
    ∀ c ∈ p.sitedClasses, (c.2.members c.1).Pairwise fun d e => d.pos < e.pos := by
  intro c hc
  obtain ⟨k, there, -⟩ := Program.mem_sitedClasses.mp hc
  have spelled := (ReadAs.ok_iff.mp read).2.2
  exact spelled.members_sorted (Scan.sorted_tokens text) c.2 (List.mem_of_getElem? there) c.1

/-- Whether a declaration has the least position among those of its name. -/
def Decl.LeastOf (d : Decl) (ds : List Decl) : Prop :=
  d ∈ ds ∧ ∀ e ∈ ds, e.name = d.name → e ≠ d → d.pos < e.pos

/-- The members of a class that a table does not have under their names. -/
def ScopeTable.refused (t : ScopeTable) (c : Site × ClassDecl) : List Decl :=
  (c.2.members c.1).filter fun d => t.retrieveMember? c.2.name d.name ≠ some d

/-- The members that are not registered, of classes that are, with the names of their classes. -/
def Program.refusedMembers (p : Program) (t : ScopeTable) : List (String × Decl) :=
  (p.registered t).flatMap fun c => (t.refused c).map fun d => (c.2.name, d)

/-- What collecting a program leaves in a table and adds to a log, if the first declaration wins. -/
structure FirstWins (p : Program) (t : ScopeTable) (before after : Log) : Prop where
  classes : ∀ name, t.retrieveClass? name = (Predefined.classes.find? (·.name == name)).or
    ((p.sitedClasses.find? (·.2.name == name)).map fun c => c.2.ref c.1)
  members : ∀ cls name d, t.retrieveMember? cls name = some d ↔
    (∃ c ∈ Predefined.classes, c.name = cls ∧ d ∈ Predefined.members c ∧ d.name = name) ∨
      ∃ c ∈ p.registered t, c.2.name = cls ∧ d.name = name ∧
        d.LeastOf (c.2.fieldDecls c.1 ++ c.2.methodDecls c.1)
  passedOver : ∀ c ∈ p.sitedClasses, c ∉ p.registered t → ∀ d ∈ c.2.members c.1, ∀ cls name,
    t.retrieveMember? cls name ≠ some d
  errors : after.errors = before.errors ++ p.sitedClasses.flatMap fun c =>
    if t.retrieveClass? c.2.name = some (c.2.ref c.1) then
      (t.refused c).map fun d => ⟨.error, .naming (.duplicateMember d.name c.2.name), d.pos⟩
    else [⟨.error, .naming (.duplicateClass c.2.name), c.2.pos⟩]
  notes : ∃ notes, after.notes = before.notes ++ notes ∧
    notes.map some = (p.refusedMembers t).map fun (cls, d) =>
      (t.retrieveMember? cls d.name).map fun first =>
        ⟨.note, .naming (.previousMember d.name), first.pos⟩

/-- In a sorted list what is found first has the least position. -/
theorem find?_eq_some_iff_leastOf {ds : List Decl} (sorted : ds.Pairwise fun d e => d.pos < e.pos)
    {name : String} {d : Decl} :
    ds.find? (·.name == name) = some d ↔ d.name = name ∧ d.LeastOf ds := by
  rw [List.find?_eq_some_iff_append]
  constructor
  · rintro ⟨same, before, after, rfl, others⟩
    have same : d.name = name := by simpa using same
    refine ⟨same, by simp, fun e he again other => ?_⟩
    rcases List.mem_append.mp he with earlier | later
    · have none := others e earlier
      simp [again, same] at none
    · have behind := (List.pairwise_cons.mp (List.pairwise_append.mp sorted).2.1).1
      exact behind e ((List.mem_cons.mp later).resolve_left other)
  · rintro ⟨same, mem, least⟩
    obtain ⟨before, after, rfl⟩ := List.mem_iff_append.mp mem
    refine ⟨by simpa using same, before, after, rfl, fun e he => ?_⟩
    have earlier := (List.pairwise_append.mp sorted).2.2 e he d (List.mem_cons_self ..)
    by_contra again
    have other : e ≠ d := by
      rintro rfl
      exact Nat.lt_irrefl _ earlier
    have later := least e (List.mem_append_left _ he) (by simpa [same] using again) other
    exact Nat.lt_asymm earlier later

theorem flatMap_filter {α β : Type} (q : α → Bool) (f : α → List β) (l : List α) :
    (l.filter q).flatMap f = l.flatMap fun a => if q a then f a else [] := by
  induction l with
  | nil => rfl
  | cons a l ih =>
    rw [List.filter_cons, List.flatMap_cons, ← ih]
    split <;> rfl

namespace Collected

variable {p : Program} {t : ScopeTable} {c : Site × ClassDecl} {cls name : String} {d : Decl}

theorem retrieveClass? (known : Collected p.sitedClasses t) (name : String) :
    t.retrieveClass? name = (Predefined.classes.find? (·.name == name)).or
      ((p.sitedClasses.find? (·.2.name == name)).map fun c => c.2.ref c.1) := by
  have found := known.classes name
  rw [firstClass?, enrolled, List.find?_append, Option.map_or, List.find?_map, List.find?_map,
    Option.map_map, Option.map_map] at found
  refine found.trans ?_
  congr 1
  exact Option.map_id'

theorem mem_registered : c ∈ p.registered t ↔
    c ∈ p.sitedClasses ∧ t.retrieveClass? c.2.name = some (c.2.ref c.1) := by
  rw [Program.registered, List.mem_filter, decide_eq_true_iff]

/-- Classes of a program that are one for the references to them are one. -/
theorem eq_of_ref {c' : Site × ClassDecl} (hc : c ∈ p.sitedClasses) (hc' : c' ∈ p.sitedClasses)
    (same : c'.2.ref c'.1 = c.2.ref c.1) : c' = c :=
  List.inj_on_of_nodup_map p.nodup_sites hc' hc (Home.user.inj (congrArg ClassRef.home same))

theorem members_of_registered (known : Collected p.sitedClasses t) (hc : c ∈ p.registered t) :
    t.retrieveMember? c.2.name name = (c.2.members c.1).find? (·.name == name) := by
  obtain ⟨there, registered⟩ := mem_registered.mp hc
  obtain ⟨b, found, same⟩ := Option.map_eq_some_iff.mp ((known.classes _).symm.trans registered)
  have member := known.members c.2.name name
  rw [firstMember?, found] at member
  refine member.trans ?_
  rcases List.mem_append.mp (List.mem_of_find?_eq_some found) with predefined | user
  · obtain ⟨r, hr, rfl⟩ := List.mem_map.mp predefined
    cases (Predefined.home_of_mem r hr).symm.trans (congrArg ClassRef.home same)
  · obtain ⟨c', hc', rfl⟩ := List.mem_map.mp user
    rw [eq_of_ref there hc' same]
    rfl

/-- What is registered for a predefined class. -/
theorem members_of_predefined (known : Collected p.sitedClasses t) {r : ClassRef}
    (hr : r ∈ Predefined.classes) (hd : d ∈ Predefined.members r) :
    t.retrieveMember? r.name d.name = some d := by
  have first : ∀ r ∈ Predefined.classes, ∀ d ∈ Predefined.members r,
      firstMember? [] r.name d.name = some d := by decide
  have found := first r hr d hd
  obtain ⟨b, there, member⟩ := Option.bind_eq_some_iff.mp found
  refine (known.members r.name d.name).trans ?_
  rw [enrolled, List.map_nil, List.append_nil] at there
  rw [firstMember?, enrolled, List.find?_append, there]
  exact member

theorem member_cases (known : Collected p.sitedClasses t)
    (h : t.retrieveMember? cls name = some d) :
    (∃ r ∈ Predefined.classes, r.name = cls ∧ d ∈ Predefined.members r ∧ d.name = name) ∨
      ∃ c ∈ p.registered t, c.2.name = cls ∧ (c.2.members c.1).find? (·.name == name) = some d := by
  have member := (known.members cls name).symm.trans h
  obtain ⟨b, found, first⟩ := Option.bind_eq_some_iff.mp member
  have named : b.1.name = cls := by simpa using List.find?_some found
  rcases List.mem_append.mp (List.mem_of_find?_eq_some found) with predefined | user
  · obtain ⟨r, hr, rfl⟩ := List.mem_map.mp predefined
    exact .inl ⟨r, hr, named, List.mem_of_find?_eq_some first, by simpa using List.find?_some first⟩
  · obtain ⟨c, hc, rfl⟩ := List.mem_map.mp user
    have registered : t.retrieveClass? c.2.name = some (c.2.ref c.1) := by
      refine (known.classes c.2.name).trans ?_
      rw [firstClass?, show c.2.name = cls from named, found]
      rfl
    exact .inr ⟨c, mem_registered.mpr ⟨hc, registered⟩, named, first⟩

/-- The members of classes at different sites are different ones. -/
theorem site_of_mem_members {c c' : ClassDecl} {site site' : Site} (h : d ∈ c.members site)
    (h' : d ∈ c'.members site') : site' = site := by
  have home {c : ClassDecl} {site : Site} (h : d ∈ c.members site) :
      ∃ list i, d.home = .user (site.item list i) := by
    rcases ClassDecl.mem_members.mp h with ⟨i, f, -, rfl⟩ | ⟨i, m, -, rfl⟩
    · exact ⟨0, i, rfl⟩
    · exact ⟨1, i, rfl⟩
  obtain ⟨list, i, here⟩ := home h
  obtain ⟨list', i', there⟩ := home h'
  cases here.symm.trans there
  rfl

/-- A class that is not registered has no member that is. -/
theorem not_member_of_not_registered (known : Collected p.sitedClasses t) (hc : c ∈ p.sitedClasses)
    (passed : c ∉ p.registered t) (hd : d ∈ c.2.members c.1) (cls name : String) :
    t.retrieveMember? cls name ≠ some d := by
  intro h
  rcases known.member_cases h with ⟨r, hr, -, mem, -⟩ | ⟨c', hc', -, first⟩
  · have fixed :
        ∀ r ∈ Predefined.classes, ∀ d ∈ Predefined.members r, d.home = .predefined := by decide
    rcases ClassDecl.mem_members.mp hd with ⟨i, f, -, rfl⟩ | ⟨i, m, -, rfl⟩ <;>
        cases fixed r hr _ mem
  · have same := site_of_mem_members hd (List.mem_of_find?_eq_some first)
    obtain rfl := List.inj_on_of_nodup_map p.nodup_sites (mem_registered.mp hc').1 hc same
    exact passed hc'

/-- The members of a registered class that are refused are those that come after one of their
name. -/
theorem refused_eq (known : Collected p.sitedClasses t) (hc : c ∈ p.registered t) :
    t.refused c = repeatedMembers (c.2.members c.1) (c.2.members c.1) := by
  simp only [ScopeTable.refused, repeatedMembers, known.members_of_registered hc]

theorem errors_of_class (known : Collected p.sitedClasses t) (hc : c ∈ p.sitedClasses) :
    (classLog p.sitedClasses c).errors = if t.retrieveClass? c.2.name = some (c.2.ref c.1) then
      (t.refused c).map fun d => ⟨.error, .naming (.duplicateMember d.name c.2.name), d.pos⟩
    else [⟨.error, .naming (.duplicateClass c.2.name), c.2.pos⟩] := by
  rw [classLog, ← known.classes]
  by_cases registered : t.retrieveClass? c.2.name = some (c.2.ref c.1)
  · rw [known.refused_eq (mem_registered.mpr ⟨hc, registered⟩),
      if_pos registered, if_pos registered]
    rfl
  · rw [if_neg registered, if_neg registered]

theorem notes_of_class (known : Collected p.sitedClasses t) (hc : c ∈ p.sitedClasses) :
    (classLog p.sitedClasses c).notes.map some =
      if t.retrieveClass? c.2.name = some (c.2.ref c.1) then
        (t.refused c).map fun d => (t.retrieveMember? c.2.name d.name).map fun first =>
          ⟨.note, .naming (.previousMember d.name), first.pos⟩
      else [] := by
  rw [classLog, ← known.classes]
  by_cases registered : t.retrieveClass? c.2.name = some (c.2.ref c.1)
  · have hr := mem_registered.mpr ⟨hc, registered⟩
    rw [known.refused_eq hr, if_pos registered, if_pos registered, memberLog, List.map_map]
    refine List.map_congr_left fun d hd => ?_
    have some : ((c.2.members c.1).find? (·.name == d.name)).isSome :=
      List.find?_isSome.mpr ⟨d, List.mem_of_mem_filter hd, beq_self_eq_true _⟩
    obtain ⟨first, found⟩ := Option.isSome_iff_exists.mp some
    simp [known.members_of_registered hr, found]
  · rw [if_neg registered, if_neg registered]
    rfl

theorem notes_of_program (known : Collected p.sitedClasses t) :
    (classesLog p.sitedClasses p.sitedClasses).notes.map some =
      (p.refusedMembers t).map fun (cls, d) => (t.retrieveMember? cls d.name).map fun first =>
        ⟨.note, .naming (.previousMember d.name), first.pos⟩ := by
  rw [classesLog, Program.refusedMembers, Program.registered, flatMap_filter, List.map_flatMap,
    List.map_flatMap]
  refine List.flatMap_congr fun c hc => ?_
  rw [known.notes_of_class hc]
  by_cases registered : t.retrieveClass? c.2.name = some (c.2.ref c.1)
  · simp only [registered, if_true, decide_true, List.map_map]
    rfl
  · simp [registered]

/-- Which declaration is registered for a name in a class. -/
theorem retrieveMember?_iff (known : Collected p.sitedClasses t)
    (sorted : ∀ c ∈ p.sitedClasses, (c.2.members c.1).Pairwise fun d e => d.pos < e.pos) :
    t.retrieveMember? cls name = some d ↔
      (∃ c ∈ Predefined.classes, c.name = cls ∧ d ∈ Predefined.members c ∧ d.name = name) ∨
        ∃ c ∈ p.registered t, c.2.name = cls ∧ d.name = name ∧
          d.LeastOf (c.2.fieldDecls c.1 ++ c.2.methodDecls c.1) := by
  have least (c : Site × ClassDecl) (hc : c ∈ p.registered t) :
      (c.2.members c.1).find? (·.name == name) = some d ↔
        d.name = name ∧ d.LeastOf (c.2.fieldDecls c.1 ++ c.2.methodDecls c.1) := by
    rw [find?_eq_some_iff_leastOf (sorted c (mem_registered.mp hc).1), Decl.LeastOf, Decl.LeastOf]
    simp only [(c.2.members_perm c.1).mem_iff]
  constructor
  · intro h
    refine (known.member_cases h).imp_right ?_
    rintro ⟨c, hc, named, first⟩
    exact ⟨c, hc, named, (least c hc).mp first⟩
  · rintro (⟨r, hr, rfl, hd, rfl⟩ | ⟨c, hc, rfl, first⟩)
    · exact known.members_of_predefined hr hd
    · exact (known.members_of_registered hc).trans ((least c hc).mpr first)

end Collected

/-- Whatever is declared more than once in a program that was read, collecting it while errors are
recorded comes to its end, and the first declaration of each name wins. The classes that are listed
meanwhile are those that are registered. -/
theorem first_declaration_wins {text : List Char} {p : Program}
    (read : Program.ofText? text = .ok p) {log : Log} (collecting : log.failFast = false)
    (bindings : SiteMap Decl) :
    ∃ w, (Resolving.collect p).run log { bindings := bindings } = (w, .ok ()) ∧
      (Resolving.collectListing p).run log { bindings := bindings } =
        (w, .ok (p.registered w.own.table)) ∧
      FirstWins p w.own.table log w.log := by
  have sorted := Program.members_sorted read
  obtain ⟨t, known, run, listing⟩ := Resolving.run_collect collecting bindings fun c hc =>
    (sorted c hc).imp fun {d e} less => by
      rintro rfl
      exact Nat.lt_irrefl _ less
  have listed : p.registered t =
      p.sitedClasses.filter fun c => firstClass? p.sitedClasses c.2.name = some (c.2.ref c.1) :=
    List.filter_congr fun c _ => by rw [← known.classes]
  refine ⟨_, run, listed ▸ listing, ?_⟩
  exact {
    classes := known.retrieveClass?
    members := fun cls name d => known.retrieveMember?_iff sorted
    passedOver := fun c hc passed d hd => known.not_member_of_not_registered hc passed hd
    errors := congrArg (log.errors ++ ·) (List.flatMap_congr fun c hc => known.errors_of_class hc)
    notes := ⟨_, rfl, known.notes_of_program⟩ }

/-- A field and a method that come after a field of their name, a class named as a predefined one
and a class named as an earlier one, whose own members are not looked at. -/
def repeatedNamesText : List Char :=
  ("class A \x7b int x; void m() \x7b \x7d boolean x; void x() \x7b \x7d \x7d " ++
    "class String \x7b int y; int y; \x7d class A \x7b int z; int z; \x7d " ++
    "class B \x7b int m; \x7d").toList

theorem repeatedNamesText_first : ∃ p w, Program.ofText? repeatedNamesText = .ok p ∧
    (Resolving.collect p).run {} { bindings := {} } = (w, .ok ()) ∧
    (Resolving.collectListing p).run {} { bindings := {} } = (w, .ok (p.registered w.own.table)) ∧
    w.log.errors.length = 4 ∧ w.log.notes.length = 2 ∧ FirstWins p w.own.table {} w.log := by
  obtain ⟨p, parsed, counted⟩ := exists_ok_of_any (x := Program.ofText? repeatedNamesText)
    (P := fun p => let log := ((Resolving.collect p).run {} { bindings := {} }).1.log
      log.errors.length = 4 ∧ log.notes.length = 2) (by decide +kernel)
  have collecting : ({} : Log).failFast = false := rfl
  obtain ⟨w, run, listing, wins⟩ := first_declaration_wins parsed collecting {}
  rw [run, decide_eq_true_iff] at counted
  exact ⟨p, w, parsed, run, listing, counted.1, counted.2, wins⟩

end JamCompiler

import JamCompiler.Proofs.Naming.Registries

/-!
# First declarations

What collecting does when errors are recorded and do not end it. It always comes to its end, and the
first declaration of a name is the one that is registered, in the order predefined classes, classes
of the program, and within a class in the order of its members. Each later one is an error, a later
member with a note at the first. A later class is passed over with all of its members.
-/

namespace JamCompiler

open Pass

/-- What is first among its equals is what has none before it. -/
theorem map_find?_eq_self_iff {α β κ : Type} [BEq κ] [LawfulBEq κ] (f : α → β) (key : α → κ)
    {before : List α} (after : List α) {a : α} (new : ∀ b ∈ before, f b ≠ f a) :
    ((before ++ a :: after).find? (key · == key a)).map f = some (f a) ↔
      before.find? (key · == key a) = none := by
  rw [List.find?_append]
  cases found : before.find? (key · == key a) with
  | none => simp
  | some b => simpa using new b (List.mem_of_find?_eq_some found)

section Lookups

variable {cls name : String}

theorem lookup_memberPairs (c : ClassRef) (ds : List Decl) :
    (c.memberPairs ds).lookup (cls, name) =
      if c.name = cls then ds.find? (·.name == name) else none := by
  split
  · rename_i same
    subst same
    induction ds with
    | nil => rfl
    | cons d ds ih =>
      rw [ClassRef.memberPairs, List.map_cons, List.find?_cons, ← ih]
      by_cases same : d.name = name
      · simp [same]
      · rw [lookup_cons_of_ne (by simpa using Ne.symm same), beq_false_of_ne same]
        rfl
  · rename_i other
    rw [lookup_eq_none_iff_not_mem, ClassRef.memberPairs]
    simp [other]

theorem lookup_classMembers {cs : List (ClassRef × List Decl)}
    (distinct : (cs.map (·.1.name)).Nodup) :
    (cs.flatMap fun c => c.1.memberPairs c.2).lookup (cls, name) =
      (cs.find? (·.1.name == cls)).bind (·.2.find? (·.name == name)) := by
  induction cs with
  | nil => rfl
  | cons c cs ih =>
    obtain ⟨new, distinct⟩ := List.nodup_cons.mp distinct
    rw [List.flatMap_cons, List.lookup_append, lookup_memberPairs, ih distinct, List.find?_cons]
    by_cases same : c.1.name = cls
    · have none : cs.find? (·.1.name == cls) = none := by
        rw [List.find?_eq_none]
        intro b hb again
        exact new (List.mem_map.mpr ⟨b, hb, (eq_of_beq again).trans same.symm⟩)
      simp [same, none]
    · rw [if_neg same, beq_false_of_ne same]
      rfl

end Lookups

/-- The members among some that come after another one of their name in the whole list. -/
def repeatedMembers (all ds : List Decl) : List Decl :=
  ds.filter fun d => all.find? (·.name == d.name) ≠ some d

/-- What is recorded for members: an error for each repeated one, and a note at the first of its
name. -/
def memberLog (cls : String) (all ds : List Decl) : Log where
  errors := (repeatedMembers all ds).map fun d =>
    ⟨.error, .naming (.duplicateMember d.name cls), d.pos⟩
  notes := (repeatedMembers all ds).map fun d =>
    ⟨.note, .naming (.previousMember d.name), ((all.find? (·.name == d.name)).map Decl.pos).getD 0⟩

theorem memberLog_first {cls : String} {all : List Decl} {d : Decl}
    (h : all.find? (·.name == d.name) = some d) :
    memberLog cls all [d] = {} := by
  simp [memberLog, repeatedMembers, h]

theorem memberLog_repeated {cls : String} {all : List Decl} {d first : Decl}
    (h : all.find? (·.name == d.name) = some first) (other : first ≠ d) :
    memberLog cls all [d] =
      { errors := [⟨.error, .naming (.duplicateMember d.name cls), d.pos⟩]
        notes := [⟨.note, .naming (.previousMember d.name), first.pos⟩] } := by
  simp [memberLog, repeatedMembers, h, other]

theorem memberLog_cons (cls : String) (all : List Decl) (d : Decl) (ds : List Decl) :
    memberLog cls all (d :: ds) = (memberLog cls all [d]).append (memberLog cls all ds) := by
  simp only [memberLog, repeatedMembers, Log.append, ← List.map_append, ← List.filter_append,
    List.singleton_append]

theorem Log.append_append (a b c : Log) : (a.append b).append c = a.append (b.append c) := by
  simp [append]

theorem Log.append_nil (log : Log) : log.append {} = log := by simp [append]

/-- A state of resolution with other members registered. -/
def Naming.withMembers (n : Naming) (members : List ((String × String) × Decl)) : Naming :=
  { n with table := { n.table with members } }

/-- A state of resolution with a class registered. -/
def Naming.withClass (n : Naming) (c : ClassRef) : Naming :=
  { n with table := { n.table with classes := (c.name, c) :: n.table.classes } }

/-- A state of resolution with one scope open. -/
def Naming.withScope (n : Naming) (scope : Scope) : Naming :=
  { n with table := { n.table with inner := [scope] } }

namespace Resolving

variable {w : Work Naming} {c : ClassRef} {d : Decl}

theorem run_registerMember_new (new : w.own.table.retrieveMember? c.name d.name = none) :
    EStateM.run (registerMember c d) w =
      .ok true ⟨w.log, w.own.withMembers (((c.name, d.name), d) :: w.own.table.members)⟩ := by
  rw [registerMember, EStateM.run_bind, run_table]
  simp only [ScopeTable.registerMember?, new]
  rfl

theorem run_registerMember_again (collecting : w.log.failFast = false) {first : Decl}
    (taken : w.own.table.retrieveMember? c.name d.name = some first) :
    EStateM.run (registerMember c d) w = .ok false ⟨w.log.append
      { errors := [⟨.error, .naming (.duplicateMember d.name c.name), d.pos⟩]
        notes := [⟨.note, .naming (.previousMember d.name), first.pos⟩] }, w.own⟩ := by
  have off : ¬ w.log.failFast = true := Bool.eq_false_iff.mp collecting
  rw [registerMember, EStateM.run_bind, run_table]
  simp only [ScopeTable.registerMember?, taken, EStateM.run_bind, run_note, reportName, run_report,
    Log.addNote, if_neg off]
  rfl

/-- A member of a class, of which those before it are registered as far as they are new. -/
theorem run_registerMember (collecting : w.log.failFast = false) {seen : List Decl}
    (other : d ∉ seen)
    (known : ∀ name, w.own.table.retrieveMember? c.name name = seen.find? (·.name == name))
    (rest : List Decl) :
    ∃ new members, EStateM.run (registerMember c d) w =
        .ok new ⟨w.log.append (memberLog c.name (seen ++ d :: rest) [d]),
          w.own.withMembers members⟩ ∧
      (∀ name, members.lookup (c.name, name) = (seen ++ [d]).find? (·.name == name)) ∧
      ∀ cls, cls ≠ c.name →
        ∀ name, members.lookup (cls, name) = w.own.table.retrieveMember? cls name := by
  cases found : seen.find? (·.name == d.name) with
  | none =>
    have first : (seen ++ d :: rest).find? (·.name == d.name) = some d := by
      simp [List.find?_append, found]
    refine ⟨true, ((c.name, d.name), d) :: w.own.table.members, ?_,
      fun name => ?_, fun cls other name => ?_⟩
    · rw [run_registerMember_new ((known _).trans found), memberLog_first first, Log.append_nil]
    · rw [List.find?_append, List.find?_singleton]
      by_cases same : d.name = name
      · subst same
        simp [found]
      · rw [lookup_cons_of_ne (by simpa using Ne.symm same)]
        refine (known name).trans ?_
        simp [same]
    · exact lookup_cons_of_ne (by simp [other])
  | some e =>
    have first : (seen ++ d :: rest).find? (·.name == d.name) = some e := by
      rw [List.find?_append, found]
      rfl
    refine ⟨false, w.own.table.members, ?_, fun name => ?_, fun cls other name => rfl⟩
    · have ne : e ≠ d := fun same => other (same ▸ List.mem_of_find?_eq_some found)
      rw [run_registerMember_again collecting ((known _).trans found), memberLog_repeated first ne]
      rfl
    · refine (known name).trans ?_
      rw [List.find?_append, List.find?_singleton]
      by_cases same : d.name = name
      · subst same
        simp [found]
      · simp [same]

/-- The members of a class, of which some are registered already. -/
theorem run_registerMembers (collecting : w.log.failFast = false) (seen rest : List Decl)
    (distinct : (seen ++ rest).Nodup)
    (known : ∀ name, w.own.table.retrieveMember? c.name name = seen.find? (·.name == name)) :
    ∃ members, EStateM.run (registerMembers c rest) w =
        .ok () ⟨w.log.append (memberLog c.name (seen ++ rest) rest), w.own.withMembers members⟩ ∧
      (∀ name, members.lookup (c.name, name) = (seen ++ rest).find? (·.name == name)) ∧
      ∀ cls, cls ≠ c.name →
        ∀ name, members.lookup (cls, name) = w.own.table.retrieveMember? cls name := by
  induction rest generalizing w seen with
  | nil =>
    refine ⟨w.own.table.members, ?_, fun name => (known name).trans (by rw [List.append_nil]),
      fun _ _ _ => rfl⟩
    rw [show memberLog c.name (seen ++ []) [] = {} from rfl, Log.append_nil]
    rfl
  | cons d rest ih =>
    have whole : seen ++ [d] ++ rest = seen ++ d :: rest := (List.append_cons ..).symm
    have other : d ∉ seen := fun mem =>
      (List.nodup_append.mp distinct).2.2 d mem d (List.mem_cons_self ..) rfl
    obtain ⟨new, members, run, own, others⟩ := run_registerMember collecting other known rest
    let next : Work Naming :=
      ⟨w.log.append (memberLog c.name (seen ++ d :: rest) [d]), w.own.withMembers members⟩
    obtain ⟨members', run', own', others'⟩ :=
      ih (w := next) collecting (seen ++ [d]) (whole ▸ distinct) own
    rw [whole] at run' own'
    refine ⟨members', ?_, own',
      fun cls other name => (others' cls other name).trans (others cls other name)⟩
    change EStateM.run ((do let _ ← registerMember c d) >>= fun _ => registerMembers c rest) w = _
    rw [memberLog_cons, ← Log.append_append, EStateM.run_bind, EStateM.run_bind, run]
    exact run'

end Resolving

/-- The predefined classes and then some classes of a program, with their members. -/
def enrolled (cs : List (Site × ClassDecl)) : List (ClassRef × List Decl) :=
  Predefined.classes.map (fun c => (c, Predefined.members c)) ++
    cs.map fun c => (c.2.ref c.1, c.2.members c.1)

/-- The first class of a name, the predefined ones before those of a program. -/
def firstClass? (cs : List (Site × ClassDecl)) (name : String) : Option ClassRef :=
  ((enrolled cs).find? (·.1.name == name)).map Prod.fst

/-- The first member of a name in the first class of a name. -/
def firstMember? (cs : List (Site × ClassDecl)) (cls name : String) : Option Decl :=
  ((enrolled cs).find? (·.1.name == cls)).bind (·.2.find? (·.name == name))

/-- What is recorded for a class among all those that are collected. -/
def classLog (all : List (Site × ClassDecl)) (c : Site × ClassDecl) : Log :=
  if firstClass? all c.2.name = some (c.2.ref c.1) then
    memberLog c.2.name (c.2.members c.1) (c.2.members c.1)
  else { errors := [⟨.error, .naming (.duplicateClass c.2.name), c.2.pos⟩] }

/-- What is recorded for some classes among all those that are collected. -/
def classesLog (all cs : List (Site × ClassDecl)) : Log where
  errors := cs.flatMap fun c => (classLog all c).errors
  notes := cs.flatMap fun c => (classLog all c).notes

theorem classesLog_cons (all : List (Site × ClassDecl)) (c : Site × ClassDecl)
    (cs : List (Site × ClassDecl)) :
    classesLog all (c :: cs) = (classLog all c).append (classesLog all cs) := by
  have mode : (classLog all c).failFast = false := by
    unfold classLog
    split <;> rfl
  rw [Log.append, mode]
  rfl

/-- A table in which the classes collected so far are registered, with their scope open. -/
structure Collected (cs : List (Site × ClassDecl)) (t : ScopeTable) : Prop where
  classes : ∀ name, t.retrieveClass? name = firstClass? cs name
  members : ∀ cls name, t.retrieveMember? cls name = firstMember? cs cls name
  scope : ∃ scope, t.inner = [scope] ∧ ∀ name, firstClass? cs name = none → scope.lookup name = none

theorem enrolled_append (cs : List (Site × ClassDecl)) (c : Site × ClassDecl)
    (rest : List (Site × ClassDecl)) :
    enrolled (cs ++ c :: rest) =
      enrolled cs ++ (c.2.ref c.1, c.2.members c.1) :: rest.map fun c =>
        (c.2.ref c.1, c.2.members c.1) := by
  simp [enrolled]

theorem Predefined.home_of_mem : ∀ c ∈ Predefined.classes, c.home = .predefined := by decide

/-- A class that comes next is none of those before it. -/
theorem ref_not_enrolled {cs rest : List (Site × ClassDecl)} {c : Site × ClassDecl}
    (sites : ((cs ++ c :: rest).map Prod.fst).Nodup) : ∀ b ∈ enrolled cs, b.1 ≠ c.2.ref c.1 := by
  rw [List.map_append, List.nodup_append] at sites
  have elsewhere : ∀ b ∈ cs, b.1 ≠ c.1 := fun b hb =>
    sites.2.2 _ (List.mem_map_of_mem hb) _ (List.mem_map_of_mem (List.mem_cons_self ..))
  intro b hb same
  have home : b.1.home = .user c.1 := by rw [same]; rfl
  rcases List.mem_append.mp hb with predefined | user
  · obtain ⟨r, hr, rfl⟩ := List.mem_map.mp predefined
    cases (Predefined.home_of_mem r hr).symm.trans home
  · obtain ⟨b, known, rfl⟩ := List.mem_map.mp user
    exact elsewhere b known (Home.user.inj home)

section Enrolled

variable {cs : List (Site × ClassDecl)} {c : Site × ClassDecl} {cls name : String}

theorem firstClass?_append (cs : List (Site × ClassDecl)) (c : Site × ClassDecl) (name : String) :
    firstClass? (cs ++ [c]) name =
      (firstClass? cs name).or (if c.2.name = name then some (c.2.ref c.1) else none) := by
  rw [firstClass?, firstClass?, enrolled_append, List.find?_append, Option.map_or, List.map_nil,
    List.find?_singleton]
  by_cases same : c.2.name = name <;> simp [same, ClassDecl.ref]

/-- A class whose name is taken is the first of no name. -/
theorem firstClass?_append_taken (taken : firstClass? cs c.2.name ≠ none) (name : String) :
    firstClass? (cs ++ [c]) name = firstClass? cs name := by
  rw [firstClass?_append]
  by_cases same : c.2.name = name
  · obtain ⟨first, found⟩ := Option.ne_none_iff_exists'.mp taken
    rw [← same, found]
    rfl
  · simp [same]

/-- A class with a new name is the first of its name. -/
theorem lookup_firstClass? {classes : List (String × ClassRef)}
    (known : ∀ name, classes.lookup name = firstClass? cs name)
    (new : firstClass? cs c.2.name = none) (name : String) :
    ((c.2.name, c.2.ref c.1) :: classes).lookup name = firstClass? (cs ++ [c]) name := by
  rw [firstClass?_append]
  by_cases same : c.2.name = name
  · subst same
    simp [new]
  · rw [lookup_cons_of_ne (Ne.symm same)]
    refine (known name).trans ?_
    simp [same]

theorem firstMember?_append_self (new : firstClass? cs c.2.name = none) :
    firstMember? (cs ++ [c]) c.2.name name = (c.2.members c.1).find? (·.name == name) := by
  rw [firstMember?, enrolled_append, List.find?_append, Option.map_eq_none_iff.mp new]
  simp [ClassDecl.ref]

theorem firstMember?_append_other (known : firstClass? cs cls ≠ none ∨ c.2.name ≠ cls) :
    firstMember? (cs ++ [c]) cls name = firstMember? cs cls name := by
  rw [firstMember?, firstMember?, enrolled_append, List.find?_append]
  cases found : (enrolled cs).find? (·.1.name == cls) with
  | some b => rfl
  | none =>
    have other : c.2.name ≠ cls :=
      known.resolve_left fun known => known (by rw [firstClass?, found]; rfl)
    simp [ClassDecl.ref, other]

/-- A class whose name is taken changes nothing. -/
theorem Collected.pass {t : ScopeTable} (known : Collected cs t)
    (taken : firstClass? cs c.2.name ≠ none) : Collected (cs ++ [c]) t where
  classes name := (known.classes name).trans (firstClass?_append_taken taken name).symm
  members cls name := by
    rw [known.members, firstMember?_append_other]
    by_cases same : c.2.name = cls
    · exact .inl (same ▸ taken)
    · exact .inr same
  scope := by
    obtain ⟨scope, inner, free⟩ := known.scope
    refine ⟨scope, inner, fun name none => free name ?_⟩
    rw [firstClass?_append, Option.or_eq_none_iff] at none
    exact none.1

/-- A class with a new name is registered with the first members of each name. -/
theorem Collected.add {t : ScopeTable} {scope : Scope} {members : List ((String × String) × Decl)}
    (known : Collected cs t) (new : firstClass? cs c.2.name = none)
    (free : ∀ name, firstClass? cs name = none → scope.lookup name = none)
    (own : ∀ name, members.lookup (c.2.name, name) = (c.2.members c.1).find? (·.name == name))
    (others : ∀ cls, cls ≠ c.2.name →
      ∀ name, members.lookup (cls, name) = t.retrieveMember? cls name) :
    Collected (cs ++ [c]) { t with
      inner := [(c.2.name, .cls (c.2.ref c.1)) :: scope]
      classes := (c.2.name, c.2.ref c.1) :: t.classes
      members := members } where
  classes := lookup_firstClass? known.classes new
  members cls name := by
    by_cases same : c.2.name = cls
    · subst same
      exact (own name).trans (firstMember?_append_self new).symm
    · exact (others cls (Ne.symm same) name).trans
        ((known.members cls name).trans (firstMember?_append_other (.inr same)).symm)
  scope := by
    refine ⟨_, rfl, fun name none => ?_⟩
    rw [firstClass?_append, Option.or_eq_none_iff] at none
    have other : c.2.name ≠ name := by
      rintro rfl
      simp at none
    rw [lookup_cons_of_ne other.symm]
    exact free name none.1

end Enrolled

namespace Resolving

variable {w : Work Naming} {cs : List (Site × ClassDecl)} {c : Site × ClassDecl}

/-- Collects a class of a program as `collectClass` does, and adds it to the classes listed before
if it is registered. -/
def listClass (listed : List (Site × ClassDecl)) (c : Site × ClassDecl) :
    Resolving (List (Site × ClassDecl)) := do
  let ref := c.2.ref c.1
  if ← registerClass ref then
    let _ ← enter (.cls ref) c.2.pos
    registerMembers ref (c.2.members c.1)
    return listed ++ [c]
  else return listed

/-- Collects the classes of a program as `collect` does, and lists those that are registered, each
when it is its turn. -/
def collectListing (p : Program) : Resolving (List (Site × ClassDecl)) := do
  Predefined.classes.forM collectPredefined
  openScope
  p.sitedClasses.foldlM listClass []

theorem run_registerClass_new {ref : ClassRef} (new : w.own.table.retrieveClass? ref.name = none) :
    EStateM.run (registerClass ref) w = .ok true ⟨w.log, w.own.withClass ref⟩ := by
  rw [registerClass, EStateM.run_bind, run_table]
  simp only [ScopeTable.registerClass?, new]
  rfl

theorem run_registerClass_again (collecting : w.log.failFast = false) {ref first : ClassRef}
    (taken : w.own.table.retrieveClass? ref.name = some first) :
    EStateM.run (registerClass ref) w = .ok false
      ⟨w.log.append { errors := [⟨.error, .naming (.duplicateClass ref.name), ref.pos⟩] },
        w.own⟩ := by
  have off : ¬ w.log.failFast = true := Bool.eq_false_iff.mp collecting
  rw [registerClass, EStateM.run_bind, run_table]
  simp only [ScopeTable.registerClass?, taken, EStateM.run_bind, reportName, run_report, if_neg off]
  simp [Log.addError, Log.append]

theorem run_enter_class {d : Decl} {scope : Scope} (inner : w.own.table.inner = [scope])
    (free : scope.lookup d.name = none) (pos : Nat) :
    EStateM.run (enter d pos) w = .ok true ⟨w.log, w.own.withScope ((d.name, d) :: scope)⟩ := by
  have entered :
      w.own.table.enter? d = .ok { w.own.table with inner := [(d.name, d) :: scope] } := by
    simp [ScopeTable.enter?, ScopeTable.holds, ScopeTable.current,
      ScopeTable.enclosingLocals, inner, free]
  rw [enter, EStateM.run_bind, run_table]
  simp only [entered]
  rfl

/-- A class that is new is registered with its members and listed, and another one is passed
over. -/
theorem run_listClass (collecting : w.log.failFast = false) (known : Collected cs w.own.table)
    (new : ∀ b ∈ enrolled cs, b.1 ≠ c.2.ref c.1) (distinct : (c.2.members c.1).Nodup)
    (rest listed : List (Site × ClassDecl)) :
    ∃ t, Collected (cs ++ [c]) t ∧ EStateM.run (listClass listed c) w = .ok
      (if firstClass? (cs ++ c :: rest) c.2.name = some (c.2.ref c.1) then listed ++ [c]
        else listed)
      ⟨w.log.append (classLog (cs ++ c :: rest) c), { w.own with table := t }⟩ := by
  have first :=
    map_find?_eq_self_iff (a := (c.2.ref c.1, c.2.members c.1)) Prod.fst (fun b => b.1.name)
      (rest.map fun c => (c.2.ref c.1, c.2.members c.1)) new
  rw [← enrolled_append] at first
  change firstClass? (cs ++ c :: rest) c.2.name = some (c.2.ref c.1) ↔
    (enrolled cs).find? (·.1.name == c.2.name) = none at first
  have found := known.classes c.2.name
  cases registered : firstClass? cs c.2.name with
  | none =>
    have here := first.mpr (Option.map_eq_none_iff.mp registered)
    rw [registered] at found
    obtain ⟨scope, inner, free⟩ := known.scope
    let next : Work Naming :=
      ⟨w.log, (w.own.withClass (c.2.ref c.1)).withScope ((c.2.name, .cls (c.2.ref c.1)) :: scope)⟩
    have unseen (name : String) : next.own.table.retrieveMember? (c.2.ref c.1).name name =
        ([] : List Decl).find? (·.name == name) := by
      refine (known.members c.2.name name).trans ?_
      rw [firstMember?, Option.map_eq_none_iff.mp registered]
      rfl
    obtain ⟨members, run, own, others⟩ :=
      run_registerMembers (w := next) collecting [] _ distinct unseen
    have entered :
        EStateM.run (enter (.cls (c.2.ref c.1)) c.2.pos) ⟨w.log, w.own.withClass (c.2.ref c.1)⟩ =
          .ok true next :=
      run_enter_class (w := ⟨w.log, w.own.withClass (c.2.ref c.1)⟩)
        (d := .cls (c.2.ref c.1)) inner (free _ registered) c.2.pos
    have joined : EStateM.run (registerMembers (c.2.ref c.1) (c.2.members c.1)) next = _ := run
    refine ⟨_, known.add registered free own others, ?_⟩
    rw [listClass, EStateM.run_bind, run_registerClass_new found, classLog,
      if_pos here, if_pos here]
    change EStateM.run (enter (.cls (c.2.ref c.1)) c.2.pos >>= fun _ =>
      registerMembers (c.2.ref c.1) (c.2.members c.1) >>= fun _ => pure (listed ++ [c])) _ = _
    rw [EStateM.run_bind, entered]
    change EStateM.run (registerMembers (c.2.ref c.1) (c.2.members c.1) >>= fun _ =>
      pure (listed ++ [c])) next = _
    rw [EStateM.run_bind, joined]
    rfl
  | some b =>
    rw [registered] at found
    have here : ¬ firstClass? (cs ++ c :: rest) c.2.name = some (c.2.ref c.1) := fun same => by
      have none := first.mp same
      rw [firstClass?, none] at registered
      cases registered
    have run : EStateM.run (registerClass (c.2.ref c.1)) w = _ :=
      run_registerClass_again collecting found
    refine ⟨w.own.table, known.pass (by rw [registered]; nofun), ?_⟩
    rw [listClass, EStateM.run_bind, run, classLog, if_neg here, if_neg here]
    rfl

/-- The classes of a program, of which some are collected already. -/
theorem run_listClasses (collecting : w.log.failFast = false) (cs rest : List (Site × ClassDecl))
    (known : Collected cs w.own.table) (sites : ((cs ++ rest).map Prod.fst).Nodup)
    (distinct : ∀ c ∈ rest, (c.2.members c.1).Nodup) (listed : List (Site × ClassDecl)) :
    ∃ t, Collected (cs ++ rest) t ∧ EStateM.run (rest.foldlM listClass listed) w = .ok
      (listed ++ rest.filter fun c => firstClass? (cs ++ rest) c.2.name = some (c.2.ref c.1))
      ⟨w.log.append (classesLog (cs ++ rest) rest), { w.own with table := t }⟩ := by
  induction rest generalizing w cs listed with
  | nil =>
    have none : classesLog (cs ++ []) [] = {} := rfl
    rw [none, Log.append_nil, List.append_nil, List.filter_nil, List.append_nil]
    exact ⟨w.own.table, known, rfl⟩
  | cons c rest ih =>
    have whole : cs ++ [c] ++ rest = cs ++ c :: rest := (List.append_cons ..).symm
    obtain ⟨t, known', run⟩ :=
      run_listClass collecting known (ref_not_enrolled sites)
        (distinct c (List.mem_cons_self ..)) rest listed
    let next : Work Naming :=
      ⟨w.log.append (classLog (cs ++ c :: rest) c), { w.own with table := t }⟩
    obtain ⟨t', known'', run'⟩ := ih (w := next) collecting (cs ++ [c]) known' (whole ▸ sites)
      (fun c hc => distinct c (List.mem_cons_of_mem _ hc)) _
    rw [whole] at run' known''
    rw [classesLog_cons, ← Log.append_append]
    refine ⟨t', known'', ?_⟩
    rw [List.foldlM_cons, EStateM.run_bind, run]
    refine run'.trans ?_
    rw [List.filter_cons]
    congr 1
    split <;> simp_all

theorem collectClass_eq (listed : List (Site × ClassDecl)) (c : Site × ClassDecl) :
    collectClass c.1 c.2 = listClass listed c >>= fun _ => pure () := by
  rw [collectClass, listClass, bind_assoc]
  refine congrArg _ (funext fun new => ?_)
  cases new <;> simp

theorem forM_collectClass (listed cs : List (Site × ClassDecl)) :
    (cs.forM fun (site, c) => collectClass site c) =
      cs.foldlM listClass listed >>= fun _ => pure () := by
  induction cs generalizing listed with
  | nil => simp
  | cons c cs ih =>
    rw [List.foldlM_cons, bind_assoc]
    change (collectClass c.1 c.2 >>= fun _ => cs.forM fun (site, c) => collectClass site c) = _
    rw [collectClass_eq listed, bind_assoc]
    refine congrArg _ (funext fun listed' => ?_)
    rw [pure_bind, ih listed']

/-- To collect a program is to list its registered classes, without the list. -/
theorem collect_eq (p : Program) : collect p = collectListing p >>= fun _ => pure () := by
  simp only [collect, collectListing, forM_collectClass [], bind_assoc]

end Resolving

/-- The table in which some predefined classes are registered, with no scope open. -/
def predefinedTable (cs : List ClassRef) : ScopeTable where
  predefined := (cs.map fun c => (c.name, .cls c)).reverse
  classes := (cs.map fun c => (c.name, c)).reverse
  members := (cs.flatMap fun c => c.memberPairs (Predefined.members c)).reverse

theorem collected_predefined : Collected [] (predefinedTable Predefined.classes).openScope where
  classes name := by
    change (Predefined.classes.map fun c => (c.name, c)).reverse.lookup name = _
    rw [lookup_reverse (by decide), lookup_map_self, firstClass?, enrolled, List.map_nil,
      List.append_nil, List.find?_map, Option.map_map]
    exact Option.map_id'.symm
  members cls name := by
    change ((enrolled []).flatMap fun c => c.1.memberPairs c.2).reverse.lookup (cls, name) = _
    rw [lookup_reverse (by decide), lookup_classMembers (by decide), firstMember?]
  scope := ⟨[], rfl, fun _ _ => rfl⟩

namespace Resolving

/-- Collecting what is predefined, up to where the scope of the classes is open. -/
def collectPredefineds : Resolving Unit := do
  Predefined.classes.forM collectPredefined
  openScope

open Predefined in
theorem run_collectPredefineds (log : Log) (bindings : SiteMap Decl) :
    EStateM.run collectPredefineds ⟨log, { bindings := bindings }⟩ =
      .ok () ⟨log, ⟨(predefinedTable classes).openScope, bindings⟩⟩ := by
  have first : EStateM.run (collectPredefined string) ⟨log, ⟨predefinedTable [], bindings⟩⟩ =
      .ok () ⟨log, ⟨predefinedTable [string], bindings⟩⟩ := rfl
  have second :
      EStateM.run (collectPredefined printStream) ⟨log, ⟨predefinedTable [string], bindings⟩⟩ =
        .ok () ⟨log, ⟨predefinedTable [string, printStream], bindings⟩⟩ := rfl
  have third : EStateM.run (collectPredefined system)
      ⟨log, ⟨predefinedTable [string, printStream], bindings⟩⟩ =
        .ok () ⟨log, ⟨predefinedTable classes, bindings⟩⟩ := rfl
  change EStateM.run
      ((collectPredefined string >>= fun _ => collectPredefined printStream >>= fun _ =>
        collectPredefined system >>= fun _ => pure ()) >>= fun _ => openScope)
      ⟨log, ⟨predefinedTable [], bindings⟩⟩ = _
  simp only [EStateM.run_bind, first, second, third]
  rfl

/-- Collecting is to collect what is predefined, and then the classes of the program. -/
theorem collect_eq_then (p : Program) : collect p =
    collectPredefineds >>= fun _ => p.sitedClasses.forM fun c => collectClass c.1 c.2 :=
  (bind_assoc ..).symm

theorem collectListing_eq (p : Program) : collectListing p =
    collectPredefineds >>= fun _ => p.sitedClasses.foldlM listClass [] :=
  (bind_assoc ..).symm

/-- Collecting the classes of a program comes to its end with all of them collected, and the classes
that it lists are those that are the first of their names. -/
theorem run_collect {log : Log} (collecting : log.failFast = false) (bindings : SiteMap Decl)
    {p : Program} (distinct : ∀ c ∈ p.sitedClasses, (c.2.members c.1).Nodup) :
    ∃ t, Collected p.sitedClasses t ∧
      (collect p).run log { bindings := bindings } =
        (⟨log.append (classesLog p.sitedClasses p.sitedClasses), ⟨t, bindings⟩⟩, .ok ()) ∧
      (collectListing p).run log { bindings := bindings } =
        (⟨log.append (classesLog p.sitedClasses p.sitedClasses), ⟨t, bindings⟩⟩,
          .ok (p.sitedClasses.filter fun c => firstClass? p.sitedClasses c.2.name =
            some (c.2.ref c.1))) := by
  let start : Work Naming := ⟨log, ⟨(predefinedTable Predefined.classes).openScope, bindings⟩⟩
  obtain ⟨t, known, run⟩ :=
    run_listClasses (w := start) collecting [] p.sitedClasses collected_predefined
    p.nodup_sites distinct []
  simp only [List.nil_append] at run known
  have begun : EStateM.run (collectListing p) ⟨log, { bindings := bindings }⟩ =
      EStateM.run (p.sitedClasses.foldlM listClass []) start := by
    rw [collectListing_eq, EStateM.run_bind, run_collectPredefineds]
  refine ⟨t, known, ?_, ?_⟩
  · rw [Pass.run, collect_eq, EStateM.run_bind, begun, run]
    rfl
  · rw [Pass.run, begun, run]

end Resolving

end JamCompiler

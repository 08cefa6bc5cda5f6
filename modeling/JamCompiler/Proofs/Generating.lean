import JamCompiler.Proofs.Emission.Calls
import JamCompiler.Proofs.Emission.Fields

/-!
# When code is generated

A program that has passed all checks has object code exactly if it has an entry, if its methods with
a result end with a return, and if it instantiates only classes of its own. Otherwise generation
ends with one error, which says what is missing; none of the faults that would be the compiler's own
can occur.
-/

namespace JamCompiler

open Machine Pass Emission Generation

/-- Whether a method has a return at its end, or may be given one. -/
def MethodDecl.Returns (m : MethodDecl) : Prop := ∃ m', m.returning = .ok m'

namespace Generation

theorem expected_of_returning {m : MethodDecl} {fault : CodeFault × Nat}
    (h : m.returning = .error fault) : fault.1.Expected := by
  unfold MethodDecl.returning at h
  split at h
  · cases h
  · split at h
    · cases h
    · split at h
      · cases h
      · cases h
        trivial

theorem returningMethods_fault (ms : List MethodDecl) :
    ((returningMethods ms).2 = none ↔ ∀ m ∈ ms, m.Returns) ∧
      ∀ fault ∈ (returningMethods ms).2, fault.1.Expected := by
  induction ms with
  | nil => exact ⟨iff_of_true rfl (List.forall_mem_nil _), by rintro _ ⟨⟩⟩
  | cons m rest ih =>
    unfold returningMethods
    rw [List.forall_mem_cons]
    cases first : m.returning with
    | error fault =>
      refine ⟨iff_of_false (Option.some_ne_none _) ?_, ?_⟩
      · rintro ⟨⟨m', made⟩, -⟩
        cases first.symm.trans made
      · rintro _ ⟨⟩
        exact expected_of_returning first
    | ok m' => exact ⟨ih.1.trans ⟨fun h => ⟨⟨m', first⟩, h⟩, And.right⟩, ih.2⟩

theorem returningClasses_fault (cs : List ClassDecl) :
    ((returningClasses cs).2 = none ↔ ∀ c ∈ cs, ∀ m ∈ c.methods, m.Returns) ∧
      ∀ fault ∈ (returningClasses cs).2, fault.1.Expected := by
  induction cs with
  | nil => exact ⟨iff_of_true rfl (List.forall_mem_nil _), by rintro _ ⟨⟩⟩
  | cons c rest ih =>
    unfold returningClasses
    rw [List.forall_mem_cons]
    obtain ⟨none, expected⟩ := returningMethods_fault c.methods
    cases result : returningMethods c.methods with
    | mk methods fault =>
      rw [result] at none expected
      cases fault with
      | some fault =>
        exact ⟨iff_of_false (Option.some_ne_none _) fun h => Option.some_ne_none _ (none.mpr h.1),
          expected⟩
      | none => exact ⟨ih.1.trans ⟨fun h => ⟨none.mp rfl, h⟩, And.right⟩, ih.2⟩

theorem expected_of_entryFault {m : MethodHead} {fault : CodeFault × Nat}
    (h : m.entryFault? = some fault) : fault.1.Expected := by
  unfold MethodHead.entryFault? at h
  split at h
  · cases h
    trivial
  · split at h
    · cases h
      trivial
    · split at h
      · cases h
        trivial
      · split at h
        · split at h <;> cases h
          trivial
        · cases h
          trivial

theorem expected_of_entry {p : Program} {fault : CodeFault × Nat} (h : p.entry? = .error fault) :
    fault.1.Expected := by
  unfold Program.entry? at h
  split at h
  · cases h
    trivial
  · cases h
    trivial
  · split at h
    · rename_i found
      cases h
      exact expected_of_entryFault found
    · cases h

end Generation

/-- Whether nothing is missing in a program for which code is to be generated. -/
structure Program.Generable (p : Program) : Prop where
  entry : ∃ main, p.entry? = .ok main
  returns : ∀ c ∈ p.classes, ∀ m ∈ c.methods, m.Returns
  news : ∀ c ∈ p.classes, ∀ m ∈ c.methods, AllInstantiable (Stmt.allNews m.body)

namespace Generation

variable {s : State} {bound : Site → Option Decl}

/-- A step that only places things. -/
theorem concludes_placing {α : Type} {step : Emitting α} {cond : Prop} {P : α → Placing → Prop}
    (h : Concludes Fault.Expected step s.placing cond P) :
    Concludes Fault.Expected (placing step) s cond fun a s' =>
      s'.program = s.program ∧ P a s'.placing := by
  rw [placing_eq]
  refine (Concludes.within State.placing (fun s p => { s with placing := p }) h).mono ?_
  rintro a _ ⟨p', rfl, holds⟩
  exact ⟨rfl, holds⟩

theorem concludes_addReturns : Concludes Fault.Expected addReturns s
    (∀ c ∈ s.program.classes, ∀ m ∈ c.methods, m.Returns) fun _ s' => s'.placing = s.placing ∧
      returningClasses s.program.classes = (s'.program.classes, none) := by
  obtain ⟨none, expected⟩ := returningClasses_fault s.program.classes
  refine .after (.getOwn (P := fun t s' => s = t ∧ s = s') ⟨rfl, rfl⟩) ?_
  rintro _ _ ⟨rfl, rfl⟩
  dsimp only
  refine .after (.modifyOwn (P := fun _ s' => s' = { s with program := { s.program with
    classes := (returningClasses s.program.classes).1 } }) rfl) ?_
  rintro _ _ rfl
  cases result : returningClasses s.program.classes with
  | mk classes fault =>
    rw [result] at none expected
    cases fault with
    | some fault =>
      exact (Concludes.fatal ⟨_, rfl, expected fault rfl⟩).congr
        (iff_of_false id fun h => (nomatch none.mpr h))
    | none => exact (Concludes.pure ⟨rfl, rfl⟩).congr (iff_of_true trivial (none.mp rfl))

theorem concludes_addressOf {method : Decl} {site : Site} {address : Nat}
    (home : method.home = .user site)
    (found : s.placing.locations.get? site = some (.code address)) :
    Concludes Fault.Expected (addressOf method) s True fun _ s' => s' = s := by
  refine .after (.getOwn (P := fun t s' => s = t ∧ s = s') ⟨rfl, rfl⟩) ?_
  rintro _ _ ⟨rfl, rfl⟩
  simp only [home, found]
  exact .pure rfl

/-- Code is linked if the methods that it calls have addresses. -/
theorem concludes_link {code : Code} (known : ∀ receiver method, Item.call receiver method ∈ code →
    ∃ site address, method.home = .user site ∧
      s.placing.locations.get? site = some (.code address)) :
    Concludes Fault.Expected (link code) s True fun _ s' => s' = s := by
  induction code with
  | nil => exact .pure rfl
  | cons item rest ih =>
    have later := ih fun receiver method h => known receiver method (List.mem_cons_of_mem _ h)
    cases item with
    | instr i =>
      refine .after later ?_
      rintro body _ rfl
      exact .pure rfl
    | call receiver method =>
      obtain ⟨site, address, home, found⟩ := known receiver method List.mem_cons_self
      refine .after (concludes_addressOf home found) ?_
      rintro a _ rfl
      refine .after later ?_
      rintro body _ rfl
      exact .pure rfl

end Generation

theorem Stmt.allNews_append_ret {stmts : List Stmt} {pos : Nat} :
    Stmt.allNews (stmts ++ [.ret none pos]) = Stmt.allNews stmts := by
  induction stmts with
  | nil => simp [allNews, news]
  | cons s rest ih => simp only [List.cons_append, allNews, ih]

/-- A body with a return instantiates the same. -/
theorem MethodDecl.news_of_returning {m m' : MethodDecl} (h : m.returning = .ok m') :
    Stmt.allNews m'.body = Stmt.allNews m.body := by
  rcases body_of_returning h with ⟨same, -⟩ | ⟨⟨pos, body⟩, -⟩
  · rw [same]
  · rw [body, Stmt.allNews_append_ret]

namespace Program

variable {p p' : Program} {bound : Site → Option Decl}

theorem forall_sitedMethods {P : MethodDecl → Prop} :
    (∀ s ∈ p.sitedMethods, P s.2) ↔ ∀ c ∈ p.classes, ∀ m ∈ c.methods, P m := by
  constructor
  · intro h c hc m hm
    obtain ⟨k, hk⟩ := List.mem_iff_getElem?.mp hc
    obtain ⟨i, hi⟩ := List.mem_iff_getElem?.mp hm
    refine h ((Site.classAt k).method i, m) (mem_sitedMethods.mpr ⟨k, c, hk, ?_⟩)
    exact List.mem_iff_getElem?.mpr ⟨i, by simp [ClassDecl.sitedMethods, hi]⟩
  · intro h s hs
    obtain ⟨k, c, hk, hc⟩ := mem_sitedMethods.mp hs
    exact h c (List.mem_of_getElem? hk) s.2 (ClassDecl.mem_of_mem_sitedMethods hc)

/-- What the methods with returns instantiate is what the methods without them do. -/
theorem news_iff (returning : returningClasses p.classes = (p'.classes, none)) :
    (∀ s ∈ p'.sitedMethods, AllInstantiable (Stmt.allNews s.2.body)) ↔
      ∀ c ∈ p.classes, ∀ m ∈ c.methods, AllInstantiable (Stmt.allNews m.body) := by
  have both := forall₂_sitedMethods returning
  rw [← forall_sitedMethods (P := fun m => AllInstantiable (Stmt.allNews m.body))]
  constructor
  · intro h s hs
    obtain ⟨s', hs', -, made⟩ := exists_of_forall₂ both hs
    rw [← MethodDecl.news_of_returning made]
    exact h s' hs'
  · intro h s' hs'
    obtain ⟨s, hs, -, made⟩ := exists_of_forall₂ both.flip hs'
    rw [MethodDecl.news_of_returning made]
    exact h s hs

/-- The methods of a program that has passed all checks can be emitted. -/
theorem Checked.emittable (h : p.Checked bound)
    (returning : returningClasses p.classes = (p'.classes, none)) :
    ∀ s ∈ p'.sitedMethods, Emittable bound p s := by
  rintro ⟨site, m'⟩ hm'
  obtain ⟨⟨site', m⟩, hm, rfl, made⟩ := exists_of_forall₂ (forall₂_sitedMethods returning).flip hm'
  obtain ⟨head, -, -, typed⟩ := MethodDecl.wellTyped_of_returning (h.typed _ hm) made
  obtain ⟨k, cls, -, -, uses⟩ := exists_bodyUses_subset hm
  refine ⟨m'.context (cls.ref (.classAt k)), head, fun u hu env same knows => ?_, typed⟩
  have inProgram : u ∈ p.uses := by
    refine uses ?_
    rw [← MethodDecl.uses_of_returning made]
    exact hu
  subst same
  exact h.ready inProgram knows

/-- Methods are apart from fields. -/
theorem methods_apart_fields {s : Site × MethodDecl} (hs : s ∈ p.sitedMethods) :
    s.1.below.Apart (fieldsFrom 0) := by
  obtain ⟨k, c, -, hc⟩ := mem_sitedMethods.mp hs
  obtain ⟨i, hi⟩ := List.mem_iff_getElem?.mp hc
  simp only [ClassDecl.sitedMethods, List.getElem?_mapIdx, Option.map_eq_some_iff] at hi
  obtain ⟨m, -, rfl⟩ := hi
  rintro t here ⟨j, -, l, -, there⟩
  by_cases same : j = k
  · subst same
    exact Site.apart_item (by simp) t here there
  · exact Site.apart_classAt same t ((Site.suffix_item _ _ _).trans there)
      ((Site.suffix_item _ _ _).trans here)

end Program

namespace Generation

variable {p : Program} {bound : Site → Option Decl}

/-- Generation comes to its end exactly if nothing is missing, and is stopped by what is missing
otherwise. -/
theorem concludes_generate (h : p.Checked bound) :
    Concludes Fault.Expected (generate bound) ⟨p, {}⟩ p.Generable fun _ s' =>
      FieldsPlaced 0 0 p.classes s'.placing ∧
        ∀ s ∈ s'.program.sitedMethods, s.2.Placed s'.placing.locations.get? s.1 := by
  refine .after (.getOwn (P := fun t s' => State.mk p {} = t ∧ State.mk p {} = s') ⟨rfl, rfl⟩) ?_
  rintro _ _ ⟨rfl, rfl⟩
  dsimp only
  refine .after (concludes_placing (concludes_placeClasses (fun _ _ => rfl) fun _ _ => rfl)) ?_
  rintro staticSize s₁ ⟨program, grown, -, fields⟩
  cases entry : p.entry? with
  | error fault =>
    refine (Concludes.fatal ⟨_, rfl, expected_of_entry entry⟩).congr (iff_of_false id ?_)
    intro generable
    obtain ⟨main, ok⟩ := generable.entry
    cases entry.symm.trans ok
  | ok main =>
    obtain ⟨mainSite, mainHead⟩ := main
    dsimp only
    refine (concludes_addReturns.bind
      (d := ∀ c ∈ p.classes, ∀ m ∈ c.methods, AllInstantiable (Stmt.allNews m.body)) ?_).congr
      ?_
    · rintro _ s₂ ⟨placing, returning⟩
      rw [program] at returning
      refine .after (.getOwn (P := fun t s' => s₂ = t ∧ s₂ = s') ⟨rfl, rfl⟩) ?_
      rintro _ _ ⟨rfl, rfl⟩
      have free : ∀ s ∈ s₂.program.sitedMethods, s₂.placing.locations.Free s.1.below := by
        intro s hs
        rw [placing]
        exact SiteMap.Free.grown (fun _ _ => rfl) grown (Program.methods_apart_fields hs)
      have fields₂ : FieldsPlaced 0 0 p.classes s₂.placing := placing ▸ fields
      have emitted := (concludes_emitMethods codeStart (h.emittable returning)
        s₂.program.sitedMethods_apart fields₂.knows free).and_ends
        (ends_emitMethods bound codeStart s₂.program.sitedMethods s₂.placing)
      refine ((concludes_placing emitted).before ?_).congr (Program.news_iff returning)
      rintro code s₃ ⟨program₃, ⟨grown₃, placed⟩, -, made⟩
      have made := made (s₃.placing.env bound) ⟨rfl, id, id⟩
      have located : ∀ s ∈ p.sitedMethods, ∃ a, s₃.placing.locations.get? s.1 = some (.code a) := by
        intro s hs
        obtain ⟨s', hs', same, -⟩ := exists_of_forall₂ (forall₂_sitedMethods returning) hs
        obtain ⟨a, found, -⟩ := made.located_le hs'
        exact ⟨a, same ▸ found⟩
      obtain ⟨⟨main, hmain, -⟩, -⟩ := Program.mem_sitedMethods_of_entry entry
      obtain ⟨address, found⟩ := located _ hmain
      refine .after (concludes_addressOf rfl found) ?_
      rintro _ _ rfl
      refine .after (concludes_link fun receiver method call => ?_) ?_
      · obtain ⟨s, hs, rfl, -⟩ := h.calling rfl returning made _ call
        obtain ⟨a, found⟩ := located s hs
        exact ⟨s.1, a, rfl, found⟩
      · rintro body _ rfl
        exact .pure ⟨fields₂.grown grown₃, program₃ ▸ placed⟩
    · rw [program]
      exact ⟨fun both => ⟨⟨_, entry⟩, both.1, both.2⟩, fun h => ⟨h.returns, h.news⟩⟩

end Generation

/-- Where everything lives in a text that compiles. -/
theorem placed_of_compile {text : List Char} {failFast : Bool} {r : CompileResult}
    (h : compile text failFast = .ok r) (ok : r.status = .success) :
    ∃ p c o, Program.ofText? text = .ok p ∧ r.compilation = some c ∧ r.object = some o ∧
      Accepted p c o ∧ FieldsPlaced 0 0 p.classes ⟨c.locations, c.layouts⟩ ∧
      ∀ s ∈ c.program.sitedMethods, s.2.Placed c.locations.get? s.1 := by
  obtain ⟨p, c, c₁, c₂, t, o, parsed, resolved, clean, checked, clean₁, generated, compilation,
    object⟩ := stages_of_compile h ok
  obtain ⟨passed, program, locations, layouts⟩ :=
    Program.checked_of_stages parsed resolved clean checked clean₁
  obtain ⟨same, made⟩ := Compilation.generated_of_generate generated
  have accepted : Accepted p c₂ o := by
    rw [program] at made
    exact ⟨same ▸ passed, made⟩
  refine ⟨p, c₂, o, parsed, compilation, object, accepted, ?_⟩
  have concludes := concludes_generate passed
  obtain ⟨w, run, rfl⟩ := Compilation.run_of_generate generated
  rw [program, locations, layouts] at run
  have ended := Pass.run_eq_ok run
  by_cases generable : p.Generable
  · obtain ⟨o', s', ran, holds⟩ := concludes.ends generable c₁.log
    cases ended.symm.trans ran
    exact holds
  · obtain ⟨fault, pos, s', -, ran⟩ := concludes.stops generable c₁.log
    cases ended.symm.trans ran

/-- A text that is read, and whose names and types are without an error, has object code exactly if
nothing is missing in it. Otherwise generation ends with one error, which says what is missing. -/
theorem generates_or_misses {text : List Char} {failFast : Bool} {p : Program}
    {c c₁ : Compilation} {t : ScopeTable} (parsed : Program.ofText? text = .ok p)
    (resolved : (p.start failFast).resolve = (c, t, .ok ())) (clean : c.log.isClean)
    (checked : c.check = (c₁, .ok ())) (clean₁ : c₁.log.isClean) :
    (p.Generable → ∃ c₂ o, c₁.generate = (c₂, .ok o) ∧ c₂.log = c₁.log) ∧
      (¬ p.Generable → ∃ c₂ f pos, c₁.generate = (c₂, .error (.aborted ⟨.error, .code f, pos⟩)) ∧
        c₂.log.errors = c₁.log.errors ++ [⟨.error, .code f, pos⟩] ∧ f.Expected) := by
  obtain ⟨passed, program, locations, layouts⟩ :=
    Program.checked_of_stages parsed resolved clean checked clean₁
  have concludes := concludes_generate passed
  unfold Compilation.generate
  simp only [program, locations, layouts, Pass.run]
  constructor
  · intro generable
    obtain ⟨o, s', ran, -⟩ := concludes.ends generable c₁.log
    rw [ran]
    exact ⟨_, o, rfl, rfl⟩
  · intro missing
    obtain ⟨_, pos, s', ⟨f, rfl, expected⟩, ran⟩ := concludes.stops missing c₁.log
    rw [ran]
    exact ⟨_, f, pos, rfl, rfl, expected⟩

/-- Everything is in order but the instance of a predefined class. -/
def predefinedInstanceText : List Char :=
  ("class A \x7b A next; int n; int f(int k) \x7b this.next.n = k; return n; \x7d " ++
    "public static void main(String[] a) \x7b System s = new System(); " ++
    "System.out.println(a.length); \x7d \x7d").toList

theorem predefinedInstanceText_misses : ∃ p c c₁ t, Program.ofText? predefinedInstanceText = .ok p ∧
    (p.start false).resolve = (c, t, .ok ()) ∧ c.log.isClean ∧ c.check = (c₁, .ok ()) ∧
    c₁.log.isClean ∧ ¬ p.Generable ∧ ∃ c₂ f pos,
      c₁.generate = (c₂, .error (.aborted ⟨.error, .code f, pos⟩)) ∧
      c₂.log.errors = c₁.log.errors ++ [⟨.error, .code f, pos⟩] ∧ f.Expected := by
  obtain ⟨p, c, t, parsed, resolved, clean, h⟩ := exists_resolved_of_check predefinedInstanceText
    (P := fun _ c => c.check.2.isOk && (c.check.1.log.isClean && !c.check.1.generate.2.isOk))
    (by decide +kernel)
  simp only [Bool.and_eq_true] at h
  obtain ⟨ended, clean₁, stopped⟩ := h
  obtain ⟨c₁, checked⟩ := exists_ended_of_isOk ended
  rw [checked] at clean₁ stopped
  obtain ⟨generates, misses⟩ := generates_or_misses parsed resolved clean checked clean₁
  have missing : ¬ p.Generable := by
    intro generable
    obtain ⟨c₂, o, made, -⟩ := generates generable
    rw [made] at stopped
    cases stopped
  exact ⟨p, c, c₁, t, parsed, resolved, clean, checked, clean₁, missing, misses missing⟩

end JamCompiler

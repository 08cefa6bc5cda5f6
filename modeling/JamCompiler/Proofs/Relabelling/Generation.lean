import JamCompiler.Generation
import JamCompiler.Proofs.Relabelling.Emission
import JamCompiler.Proofs.Stages

/-!
# Generation from relabelled programs

Fields are placed by their number, returns are added by the form of the bodies, and the entry is
the method called `main`, which keeps its name. So the object code of a relabelled program is the
same.
-/

namespace JamCompiler

open Machine Pass

/-- The fault of a body whose method, with such a name, needs a return after such a position. -/
def lacksReturn (ρ : Relabelling) (lacking : String × Nat) : CodeFault × Nat :=
  (.missingReturn (ρ.name lacking.1), ρ.place lacking.2)

theorem MethodDecl.returning_relabel (m : MethodDecl) :
    (∃ m', ∀ ρ : Relabelling, (m.relabel ρ.written).returning = .ok (relabel ρ.written m')) ∨
      ∃ lacking, ∀ ρ : Relabelling, (m.relabel ρ.written).returning =
        .error (lacksReturn ρ lacking) := by
  have last : ∀ ρ : Relabelling, (m.relabel ρ.written).body.getLast? =
      m.body.getLast?.map (·.relabel ρ.written) := by
    intro ρ
    rw [relabel, Stmt.relabelAll_eq_map, List.getLast?_map]
  have body : ∀ (ρ : Relabelling) (s : Stmt), Stmt.relabelAll ρ.written m.body ++
      [s.relabel ρ.written] = Stmt.relabelAll ρ.written (m.body ++ [s]) := by
    intro ρ s
    simp [Stmt.relabelAll_eq_map]
  simp only [returning, last]
  cases m.body.getLast? with
  | none => exact .inl ⟨{ m with body := [.ret none m.head.pos] }, fun _ => rfl⟩
  | some s =>
    simp only [Option.map_some, Stmt.isReturn_relabel, Stmt.pos_relabel]
    have void :
        ∀ ρ : Relabelling, (m.relabel ρ.written).head.result.isVoid = m.head.result.isVoid :=
      fun ρ => m.head.result.isVoid_relabel
    simp only [void]
    cases s.isReturn with
    | true => exact .inl ⟨m, fun _ => rfl⟩
    | false =>
      cases m.head.result.isVoid with
      | true =>
        refine .inl ⟨{ m with body := m.body ++ [.ret none s.pos] }, fun ρ => ?_⟩
        exact congrArg (fun body => Except.ok (MethodDecl.mk (m.head.relabel ρ.written) body))
          (body ρ (.ret none s.pos))
      | false => exact .inr ⟨(m.head.name, s.pos), fun _ => rfl⟩

theorem returningMethods_relabel (ms : List MethodDecl) :
    ∃ ms' lacking, ∀ ρ : Relabelling, returningMethods (ms.map (·.relabel ρ.written)) =
      (List.map (MethodDecl.relabel ρ.written) ms', Option.map (lacksReturn ρ) lacking) := by
  induction ms with
  | nil => exact ⟨[], none, fun _ => rfl⟩
  | cons m rest ih =>
    rcases m.returning_relabel with ⟨m', made⟩ | ⟨lacking, lacks⟩
    · obtain ⟨rest', lacking, same⟩ := ih
      refine ⟨m' :: rest', lacking, fun ρ => ?_⟩
      simp only [List.map_cons, returningMethods, made, same]
    · refine ⟨m :: rest, some lacking, fun ρ => ?_⟩
      simp only [List.map_cons, returningMethods, lacks, Option.map_some]

theorem returningClasses_relabel (cs : List ClassDecl) :
    ∃ cs' lacking, ∀ ρ : Relabelling, returningClasses (cs.map (·.relabel ρ.written)) =
      (List.map (ClassDecl.relabel ρ.written) cs', Option.map (lacksReturn ρ) lacking) := by
  induction cs with
  | nil => exact ⟨[], none, fun _ => rfl⟩
  | cons c rest ih =>
    obtain ⟨ms, lacking, methods⟩ := returningMethods_relabel c.methods
    have first : ∀ ρ : Relabelling, returningMethods (c.relabel ρ.written).methods =
      (List.map (MethodDecl.relabel ρ.written) ms, Option.map (lacksReturn ρ) lacking) := methods
    cases lacking with
    | some lacking =>
      refine ⟨{ c with methods := ms } :: rest, some lacking, fun ρ => ?_⟩
      simp only [List.map_cons, returningClasses, first, Option.map_some]
      rfl
    | none =>
      obtain ⟨rest', lacking, same⟩ := ih
      refine ⟨{ c with methods := ms } :: rest', lacking, fun ρ => ?_⟩
      simp only [List.map_cons, returningClasses, first, Option.map_none, same]
      rfl

/-- Faults that go together, with their positions. -/
def FaultsAlike (ρ ρ' : Relabelling) (f f' : CodeFault × Nat) : Prop :=
  Places ρ ρ' f.2 f'.2 ∧ (ρ.name = ρ'.name → f.1 = f'.1)

theorem Program.mains_relabel (ρ : Relabelling) (p : Program) :
    (p.relabel ρ.written).mains = p.mains.map fun m => (m.1, m.2.relabel ρ.written) := by
  rw [mains, mains, sitedMethods_relabel, List.filterMap_map, List.map_filterMap]
  refine List.filterMap_congr fun m _ => ?_
  have entry : ρ.name m.2.head.name = "main" ↔ m.2.head.name = "main" :=
    ρ.name_eq_known (by decide)
  simp only [Function.comp_apply, MethodDecl.relabel, MethodHead.relabel,
    Relabelling.written, entry]
  split <;> rfl

theorem TypeExpr.isStringArray_relabel (ρ : Relabelling) (t : TypeExpr) :
    (t.relabel ρ.written).isStringArray = t.isStringArray := by
  cases t with
  | base | named | unknown => rfl
  | array element pos =>
    cases element with
    | base | array | unknown => rfl
    | named name pos =>
      exact decide_eq_decide.mpr (ρ.name_eq_known (m := "String") (by decide))

theorem MethodHead.entryFault?_relabel (m : MethodHead) :
    (∀ ρ : Relabelling, (m.relabel ρ.written).entryFault? = none) ∨
      ∃ f : Relabelling → CodeFault × Nat,
        (∀ ρ, (m.relabel ρ.written).entryFault? = some (f ρ)) ∧
          ∀ ρ ρ', FaultsAlike ρ ρ' (f ρ) (f ρ') := by
  have fixed : ∀ fault pos ρ ρ',
      FaultsAlike ρ ρ' (fault, ρ.written.place pos) (fault, ρ'.written.place pos) :=
    fun fault pos ρ ρ' => ⟨.place pos, fun _ => rfl⟩
  unfold entryFault?
  simp only [MethodHead.relabel, TypeExpr.isVoid_relabel]
  by_cases static : m.isStatic = true
  · by_cases hidden : m.isPrivate = true
    · exact .inr ⟨_, fun ρ => by simp [static, hidden], fixed .mainPrivate m.pos⟩
    · by_cases void : m.result.isVoid = true
      · obtain none | ⟨p, none | more⟩ := m.params
        · exact .inr ⟨_, fun ρ => by simp [static, hidden, void], fixed .mainParams m.pos⟩
        · have type : ∀ ρ : Relabelling, (p.relabel ρ.written).type.isStringArray =
              p.type.isStringArray := fun ρ => p.type.isStringArray_relabel ρ
          by_cases strings : p.type.isStringArray = true
          · exact .inl fun ρ => by simp [static, hidden, void, type, strings]
          · refine .inr ⟨fun ρ => (.mainParamType (p.type.relabel ρ.written).text, ρ.place p.pos),
              fun ρ => by simp [static, hidden, void, type, strings]; exact ⟨rfl, rfl⟩,
              fun ρ ρ' => ⟨.place p.pos, fun names => ?_⟩⟩
            exact congrArg CodeFault.mainParamType (p.type.text_relabel names)
        · exact .inr ⟨_, fun ρ => by simp [static, hidden, void], fixed .mainParams m.pos⟩
      · exact .inr ⟨_, fun ρ => by simp [static, hidden, void], fixed .mainNotVoid m.pos⟩
  · exact .inr ⟨_, fun ρ => by simp [static], fixed .mainNotStatic m.pos⟩

theorem Program.entry?_relabel (p : Program) :
    (∃ main : Site × MethodHead, ∀ ρ : Relabelling,
      Program.entry? (p.relabel ρ.written) = .ok (main.1, main.2.relabel ρ.written)) ∨
      ∃ f : Relabelling → CodeFault × Nat,
        (∀ ρ, Program.entry? (p.relabel ρ.written) = .error (f ρ)) ∧
          ∀ ρ ρ', FaultsAlike ρ ρ' (f ρ) (f ρ') := by
  simp only [Program.entry?, mains_relabel]
  match p.mains with
  | [] => exact .inr ⟨fun _ => (.noMain, 0), fun _ => rfl, fun ρ ρ' => ⟨.zero, fun _ => rfl⟩⟩
  | first :: second :: rest =>
    exact .inr ⟨fun ρ => (.manyMains, ρ.place second.2.pos), fun _ => rfl,
      fun ρ ρ' => ⟨.place second.2.pos, fun _ => rfl⟩⟩
  | [main] =>
    rcases main.2.entryFault?_relabel with none | ⟨f, some, alike⟩
    · exact .inl ⟨main, fun ρ => by simp only [List.map_cons, List.map_nil, none]⟩
    · exact .inr ⟨f, fun ρ => by simp only [List.map_cons, List.map_nil, some], alike⟩

namespace Generation

def State.relabel (ρ : Relabelling) (s : State) : State :=
  { s with program := s.program.relabel ρ.written }

variable {ρ ρ' : Relabelling}

theorem mirrors_fatal {α γ : Type} {answer : Relabelling → γ → α} {f f' : CodeFault × Nat}
    (alike : FaultsAlike ρ ρ' f f') :
    Mirrors ρ ρ' State.relabel answer (fatal f) (fatal f') :=
  .fatal alike.1 fun names => by rw [alike.2 names]

theorem mirrors_placing {α γ : Type} {answer : Relabelling → γ → α}
    {step step' : Emission.Emitting α} (h : Mirrors ρ ρ' unchanged answer step step') :
    Mirrors ρ ρ' State.relabel answer (placing step) (placing step') := by
  rw [placing_eq, placing_eq]
  exact .within State.placing (fun s p => { s with placing := p }) (fun _ _ => rfl)
    (fun _ _ _ => rfl) h

theorem mirrors_placeFields (cls : Site) (k statics instances : Nat) (fields : List FieldDecl) :
    Mirrors ρ ρ' unchanged unchanged
      (placeFields cls k statics instances (fields.map (·.relabel ρ.written)))
      (placeFields cls k statics instances (fields.map (·.relabel ρ'.written))) := by
  induction fields generalizing k statics instances with
  | nil => exact .pure (statics, instances) rfl rfl
  | cons f rest ih =>
    simp only [List.map_cons, placeFields, FieldDecl.relabel]
    cases f.isStatic with
    | true | false => exact (Emission.mirrors_place _ _ f.name f.pos).bind fun _ => ih _ _ _

theorem mirrors_placeClasses (number statics : Nat) (classes : List ClassDecl) :
    Mirrors ρ ρ' unchanged unchanged
      (placeClasses number statics (classes.map (·.relabel ρ.written)))
      (placeClasses number statics (classes.map (·.relabel ρ'.written))) := by
  induction classes generalizing number statics with
  | nil => exact .pure statics rfl rfl
  | cons c rest ih =>
    refine (mirrors_placeFields (.classAt number) 0 statics 0 c.fields).bind fun counts => ?_
    refine (Mirrors.modifyOwn (fun p => { p with
      layouts := p.layouts.fill (.classAt number) ⟨number, counts.2⟩ }) (fun _ => rfl)
      fun _ => rfl).bind fun _ => ?_
    exact ih (number + 1) counts.1

theorem mirrors_addReturns :
    Mirrors ρ ρ' State.relabel unchanged addReturns addReturns := by
  refine Mirrors.getOwn.bind fun s => ?_
  obtain ⟨classes, lacking, returning⟩ := returningClasses_relabel s.program.classes
  have returned : ∀ ρ : Relabelling, returningClasses (s.relabel ρ).program.classes =
      (List.map (ClassDecl.relabel ρ.written) classes, Option.map (lacksReturn ρ) lacking) :=
    returning
  simp only [returned]
  refine (Mirrors.modifyOwn (fun t : State =>
    { t with program := { s.program with classes := classes } }) (fun _ => rfl)
    fun _ => rfl).bind fun _ => ?_
  cases lacking with
  | none => exact .done
  | some lacking =>
    exact mirrors_fatal ⟨.place lacking.2, fun names => by simp only [lacksReturn, names]⟩

theorem mirrors_addressOf (d : Decl) :
    Mirrors ρ ρ' State.relabel unchanged (addressOf (d.relabel ρ)) (addressOf (d.relabel ρ')) := by
  refine Mirrors.getOwn.bind fun s => ?_
  have refused : Mirrors ρ ρ' State.relabel (unchanged (α := Nat))
      (fatal (.notPlaced (d.relabel ρ).name, (d.relabel ρ).pos))
      (fatal (.notPlaced (d.relabel ρ').name, (d.relabel ρ').pos)) :=
    mirrors_fatal ⟨d.places, fun names => by simp only [Decl.relabel_name, names]⟩
  simp only [Decl.relabel_home, State.relabel]
  cases d.home with
  | predefined => exact refused
  | user site =>
    dsimp only
    cases s.placing.locations.get? site with
    | none => exact refused
    | some location =>
      cases location with
      | code address => exact .pure address rfl rfl
      | static | object | frame => exact refused

theorem callsFrom_relabel (ρ : Relabelling) (addr : Nat) (code : Code) :
    callsFrom addr (relabelCode ρ code) =
      (callsFrom addr code).map fun c => (c.1, c.2.relabel ρ) := by
  induction code generalizing addr with
  | nil => rfl
  | cons item rest ih =>
    cases item with
    | instr i => exact ih (addr + 1)
    | call receiver method => exact congrArg _ (ih (addr + 1))

theorem mirrors_link (code : Code) :
    Mirrors ρ ρ' State.relabel unchanged (link (relabelCode ρ code))
      (link (relabelCode ρ' code)) := by
  induction code with
  | nil => exact .pure [] rfl rfl
  | cons item rest ih =>
    cases item with
    | instr i => exact ih.answers (i :: ·) (fun _ => rfl) fun _ => rfl
    | call receiver method =>
      refine (mirrors_addressOf method).bind fun address => ?_
      exact ih.answers ({ op := if receiver then .calli else .call, r := .cb, d := address } :: ·)
        (fun _ => rfl) fun _ => rfl

end Generation

def ObjectCode.relabel (ρ : Relabelling) (o : ObjectCode) : ObjectCode :=
  { o with patches := o.patches.map fun c => (c.1, c.2.relabel ρ) }

/-- A program has the same object code whichever way it is relabelled, or lacks the same. -/
theorem Generation.mirrors_generate {ρ ρ' : Relabelling} (bound : Site → Option Decl) :
    Pass.Mirrors ρ ρ' State.relabel ObjectCode.relabel (generate (relabelBound ρ bound))
      (generate (relabelBound ρ' bound)) := by
  refine Mirrors.getOwn.bind fun s => ?_
  refine (mirrors_placing (mirrors_placeClasses 0 0 s.program.classes)).bind fun statics => ?_
  rcases s.program.entry?_relabel with ⟨main, entry⟩ | ⟨f, refused, alike⟩
  · have found : ∀ ρ : Relabelling, Program.entry? (s.relabel ρ).program =
      .ok (main.1, main.2.relabel ρ.written) := entry
    simp only [found]
    -- The program is read again, now that returns have been added to it.
    refine mirrors_addReturns.bind fun _ => Mirrors.getOwn.bind fun s => ?_
    have sited : ∀ ρ : Relabelling, (s.relabel ρ).program.sitedMethods =
      s.program.sitedMethods.map fun m => (m.1, m.2.relabel ρ.written) :=
      fun ρ => s.program.sitedMethods_relabel ρ
    simp only [sited]
    refine (mirrors_placing (Emission.mirrors_emitMethods bound codeStart _)).bind fun code => ?_
    refine (mirrors_addressOf (.method (.user main.1) main.2)).bind fun entry => ?_
    refine (mirrors_link code).answers (fun body => ⟨prelude statics entry ++ body, statics,
      (entryCall, .method (.user main.1) main.2) :: callsFrom codeStart code, entry⟩) ?_ ?_
    · intro body
      rw [callsFrom_relabel]
      rfl
    · intro body
      rw [callsFrom_relabel]
      rfl
  · have missing : ∀ ρ : Relabelling, Program.entry? (s.relabel ρ).program = .error (f ρ) := refused
    simp only [missing]
    exact mirrors_fatal (alike ρ ρ')

end JamCompiler

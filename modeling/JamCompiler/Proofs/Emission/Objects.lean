import JamCompiler.Proofs.Emission.Runs
import JamCompiler.Proofs.Stages
import Mathlib.Data.List.Forall2

/-!
# Object code

What object code consists of: the prelude, and the code of all methods, in which calls have the
addresses of the methods they call. `Generated` says this of the result of a generation that comes
to its end, and `ends_generate` that every such generation gives it.
-/

namespace JamCompiler

open Machine Pass Emission

theorem forall₂_getElem? {α β : Type} {R : α → β → Prop} {as : List α} {bs : List β}
    (h : List.Forall₂ R as bs) (k : Nat) {a : α} (ha : as[k]? = some a) :
    ∃ b, bs[k]? = some b ∧ R a b := by
  induction h generalizing k with
  | nil => simp at ha
  | cons first _ ih =>
    cases k with
    | zero =>
      cases ha
      exact ⟨_, rfl, first⟩
    | succ k => exact ih k ha

namespace Generation

/-- An instruction that is an item with its address, if it is a call. -/
def Linked (env : Env) : Item → Instruction → Prop
  | .instr i, linked => linked = i
  | .call receiver method, linked => ∃ site address, method.home = .user site ∧
      env.located site = some (.code address) ∧
      linked = { op := if receiver then .calli else .call, r := .cb, d := (address : Nat) }

/-- Object code with what it was made of: the program, the same with returns added, what is known
when all is placed, the entry and the code before it was linked. -/
structure Generated (p p' : Program) (env : Env) (main : Site × MethodHead) (code : Code)
    (o : ObjectCode) : Prop where
  entry : p.entry? = .ok main
  returning : returningClasses p.classes = (p'.classes, none)
  methods : MadeOf env codeStart p'.sitedMethods code
  address : env.located main.1 = some (.code o.entry)
  linked : ∃ body, List.Forall₂ (Linked env) code body ∧
    o.code = prelude o.staticSize o.entry ++ body
  patches : o.patches = (entryCall, .method (.user main.1) main.2) :: callsFrom codeStart code

namespace Generated

variable {p p' : Program} {env : Env} {main : Site × MethodHead} {code : Code} {o : ObjectCode}
variable {k : Nat} {item : Item} {i : Instruction}

theorem length_code (h : Generated p p' env main code o) :
    o.code.length = codeStart + code.length := by
  obtain ⟨body, linked, whole⟩ := h.linked
  rw [whole, List.length_append, linked.length_eq]
  rfl

theorem at_prelude (h : Generated p p' env main code o) (low : k < codeStart) :
    o.code[k]? = (prelude o.staticSize o.entry)[k]? := by
  obtain ⟨body, -, whole⟩ := h.linked
  rw [whole, List.getElem?_append_left low]

theorem linked_at (h : Generated p p' env main code o) (hk : code[k]? = some item) :
    ∃ i, o.code[codeStart + k]? = some i ∧ Linked env item i := by
  obtain ⟨body, linked, whole⟩ := h.linked
  obtain ⟨i, hi, both⟩ := forall₂_getElem? linked k hk
  refine ⟨i, ?_, both⟩
  have five : (prelude o.staticSize o.entry).length = codeStart := rfl
  rw [whole, ← five, List.getElem?_append_right (Nat.le_add_right _ _), Nat.add_sub_cancel_left]
  exact hi

theorem item_at (h : Generated p p' env main code o) (hi : o.code[codeStart + k]? = some i) :
    ∃ item, code[k]? = some item ∧ Linked env item i := by
  have short : k < code.length := by
    have within := (List.getElem?_eq_some_iff.mp hi).1
    rw [h.length_code] at within
    exact Nat.lt_of_add_lt_add_left within
  obtain ⟨j, hj, both⟩ := h.linked_at (List.getElem?_eq_getElem short)
  cases hj.symm.trans hi
  exact ⟨_, List.getElem?_eq_getElem short, both⟩

end Generated

variable {s : State}

/-- A step that only places things leaves the program. -/
theorem ends_placing {α : Type} {step : Emitting α} {P : α → Placing → Prop}
    (h : Ends step s.placing P) :
    Ends (placing step) s fun a s' => s'.program = s.program ∧ P a s'.placing := by
  rw [placing_eq]
  refine ⟨fun run => ?_⟩
  rw [run_within] at run
  split at run
  · rename_i inner
    cases run
    exact ⟨rfl, h.holds inner⟩
  · cases run

theorem ends_addReturns : Ends addReturns s fun _ s' => s'.placing = s.placing ∧
    returningClasses s.program.classes = (s'.program.classes, none) := by
  refine Ends.bind (Ends.getOwn (P := fun t s' => s = t ∧ s = s') ⟨rfl, rfl⟩) ?_
  rintro _ _ ⟨rfl, rfl⟩
  dsimp only
  refine Ends.bind (Ends.modifyOwn (P := fun _ s' => s' = { s with program := { s.program with
    classes := (returningClasses s.program.classes).1 } }) rfl) ?_
  rintro _ _ rfl
  cases result : returningClasses s.program.classes with
  | mk classes fault =>
    cases fault with
    | some fault => exact .fatal
    | none => exact Ends.pure ⟨rfl, rfl⟩

theorem ends_addressOf (bound : Site → Option Decl) (method : Decl) :
    Ends (addressOf method) s fun address s' => s' = s ∧ ∃ site, method.home = .user site ∧
      (s.placing.env bound).located site = some (.code address) := by
  refine Ends.bind (Ends.getOwn (P := fun t s' => s = t ∧ s = s') ⟨rfl, rfl⟩) ?_
  rintro _ _ ⟨rfl, rfl⟩
  dsimp only
  cases home : method.home with
  | predefined => exact .fatal
  | user site =>
    dsimp only
    split
    · rename_i address found
      exact Ends.pure ⟨rfl, site, rfl, found⟩
    · exact .fatal

theorem ends_link (bound : Site → Option Decl) (code : Code) :
    Ends (link code) s fun body s' => s' = s ∧
      List.Forall₂ (Linked (s.placing.env bound)) code body := by
  induction code with
  | nil => exact Ends.pure ⟨rfl, .nil⟩
  | cons item rest ih =>
    cases item with
    | instr i =>
      refine Ends.bind ih ?_
      rintro body _ ⟨rfl, linked⟩
      exact Ends.pure ⟨rfl, .cons rfl linked⟩
    | call receiver method =>
      refine Ends.bind (ends_addressOf bound method) ?_
      rintro address _ ⟨rfl, site, home, found⟩
      refine Ends.bind ih ?_
      rintro body _ ⟨rfl, linked⟩
      exact Ends.pure ⟨rfl, .cons ⟨site, address, home, found, rfl⟩ linked⟩

/-- A generation that comes to its end gives object code that consists of what it should. -/
theorem ends_generate (bound : Site → Option Decl) :
    Ends (generate bound) s fun o s' => ∃ main code,
      Generated s.program s'.program (s'.placing.env bound) main code o := by
  refine Ends.bind (Ends.getOwn (P := fun t s' => s = t ∧ s = s') ⟨rfl, rfl⟩) ?_
  rintro _ _ ⟨rfl, rfl⟩
  dsimp only
  refine Ends.bind (ends_placing (P := fun _ _ => True) ⟨fun _ => trivial⟩) ?_
  rintro staticSize s₁ ⟨program, -⟩
  cases entry : s.program.entry? with
  | error fault => exact .fatal
  | ok main =>
    obtain ⟨mainSite, mainHead⟩ := main
    dsimp only
    refine Ends.bind ends_addReturns ?_
    rintro _ s₂ ⟨-, returning⟩
    rw [program] at returning
    refine Ends.bind (Ends.getOwn (P := fun t s' => s₂ = t ∧ s₂ = s') ⟨rfl, rfl⟩) ?_
    rintro _ _ ⟨rfl, rfl⟩
    refine Ends.bind (ends_placing (ends_emitMethods bound codeStart s₂.program.sitedMethods _)) ?_
    rintro code s₃ ⟨program', -, made⟩
    refine Ends.bind (ends_addressOf bound _) ?_
    rintro address _ ⟨rfl, site, home, found⟩
    obtain rfl : mainSite = site := Home.user.inj home
    refine Ends.bind (ends_link bound code) ?_
    rintro body _ ⟨rfl, linked⟩
    refine Ends.pure ⟨(mainSite, mainHead), code, entry, ?_, ?_, found, ⟨body, linked, rfl⟩, rfl⟩
    · rw [program']
      exact returning
    · rw [program']
      exact made _ ⟨rfl, id, id⟩

end Generation

end JamCompiler

import JamCompiler.Proofs.Emission.Ranges

/-!
# Calls in code

Which methods are called from the code of a program that has passed all checks: those of the
program, with a receiver exactly if they are not static. No other item calls into the code.
-/

namespace JamCompiler

open Machine Emission Generation

/-- Whether an instruction calls a method, and not a primitive. -/
def Machine.Instruction.CallsMethod (i : Instruction) : Prop :=
  (i.op = .call ∨ i.op = .calli) ∧ i.r = .cb

namespace Generation

/-- Whether an item that calls a method calls one of a program, with a receiver exactly if it is not
static. -/
def Calling (p : Program) : Item → Prop
  | .instr i => ¬ i.CallsMethod
  | .call receiver method => ∃ s ∈ p.sitedMethods,
      method = .method (.user s.1) s.2.head ∧ receiver = !s.2.head.isStatic

variable {p : Program} {item : Item}

theorem calling_prim (prim : Primitive) : Calling p (Emission.prim prim) := fun h => nomatch h.2

theorem calling_simple (h : Simple p.HasMethod item) : Calling p item := by
  cases h with
  | prim p => exact calling_prim p
  | literal | load | self => exact fun h => by rcases h.1 with op | op <;> cases op
  | call known own =>
    rcases known with println | ⟨s, hs, rfl, rfl⟩
    · exact absurd println own
    · exact ⟨s, hs, rfl, rfl⟩

theorem calling_ordinary {words : Int} {arity : Nat} (h : Ordinary p.HasMethod words arity item) :
    Calling p item := by
  cases h with
  | simple simple => exact calling_simple simple
  | store | pop | ret => exact fun h => by rcases h.1 with op | op <;> cases op

theorem calling_formal (h : Tree.Formal item) : Calling p item := by
  cases h with
  | prim p => exact calling_prim p
  | copy | jump | jumpIf => exact fun h => by rcases h.1 with op | op <;> cases op

end Generation

namespace Emission

/-- What holds of all items of all methods holds of the items of their code. -/
theorem MadeOf.forall {env : Env} {base : Nat} {methods : List (Site × MethodDecl)} {code : Code}
    {P : Item → Prop} (h : MadeOf env base methods code)
    (all : ∀ s ∈ methods, ∀ t, s.2.tree env s.1 = .ok t → ∀ base, ∀ item ∈ t.code base, P item) :
    ∀ item ∈ code, P item := by
  induction methods generalizing base code with
  | nil =>
    cases h
    exact nofun
  | cons s rest ih =>
    obtain ⟨t, more, made, -, rfl, later⟩ := h
    refine List.forall_mem_append.mpr ⟨all s List.mem_cons_self t made base, ?_⟩
    exact ih later fun s hs => all s (List.mem_cons_of_mem _ hs)

end Emission

/-- The entry is a static method of the program. -/
theorem Program.mem_sitedMethods_of_entry {p : Program} {main : Site × MethodHead}
    (h : p.entry? = .ok main) :
    (∃ m, (main.1, m) ∈ p.sitedMethods ∧ m.head = main.2) ∧ main.2.isStatic = true := by
  unfold entry? at h
  split at h
  · cases h
  · cases h
  · rename_i main' only
    split at h
    · cases h
    · rename_i fit
      cases h
      have found : main ∈ p.mains := by rw [only]; exact List.mem_singleton_self _
      obtain ⟨⟨site, m⟩, hm, named⟩ := List.mem_filterMap.mp found
      dsimp only at named
      split at named
      · cases named
        refine ⟨⟨m, hm, rfl⟩, ?_⟩
        by_contra notStatic
        rw [MethodHead.entryFault?, if_pos (by simpa using notStatic)] at fit
        cases fit
      · cases named

/-- The items of unlinked code are ordinary ones and those that forms of trees ask for. -/
theorem Program.Checked.items {p p' : Program} {bound : Site → Option Decl} {env : Env}
    {base : Nat} {code : Code} (h : p.Checked bound) (same : env.bound = bound)
    (returning : returningClasses p.classes = (p'.classes, none))
    (made : MadeOf env base p'.sitedMethods code) :
    ∀ item ∈ code, (∃ words arity, Ordinary p.HasMethod words arity item) ∨ Tree.Formal item := by
  subst same
  refine made.forall ?_
  rintro ⟨site, m'⟩ hm' t made base item hi
  obtain ⟨⟨site', m⟩, hm, rfl, returning⟩ :=
    exists_of_forall₂ (forall₂_sitedMethods returning).flip hm'
  exact ((h.ordinary hm returning made).code base item hi).imp_left fun ordinary => ⟨_, _, ordinary⟩

/-- The items of unlinked code call only methods of the program. -/
theorem Program.Checked.calling {p p' : Program} {bound : Site → Option Decl} {env : Env}
    {base : Nat} {code : Code} (h : p.Checked bound) (same : env.bound = bound)
    (returning : returningClasses p.classes = (p'.classes, none))
    (made : MadeOf env base p'.sitedMethods code) : ∀ item ∈ code, Calling p item := by
  intro item hi
  rcases h.items same returning made item hi with ⟨words, arity, ordinary⟩ | formal
  · exact calling_ordinary ordinary
  · exact calling_formal formal

end JamCompiler

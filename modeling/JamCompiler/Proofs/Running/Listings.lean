import JamCompiler.Proofs.Emission.Calls

/-!
# Listings that exist

Code has a listing exactly if each of its calls of primitives is one of a primitive that there is.
Object code of an accepted program has one: all its calls of primitives were emitted as such, with
the number of a primitive and nothing in the other operand.
-/

namespace JamCompiler

open Machine Emission Generation

/-- Whether an instruction has a line in a listing. -/
def Machine.Instruction.Listed (i : Instruction) : Prop :=
  i.callsPrimitive → (Primitive.ofNumber? i.d).isSome

namespace Machine.Listing

theorem exists_instruction_iff {i : Instruction} :
    (∃ text, instruction i = .ok text) ↔ i.Listed := by
  unfold instruction Instruction.Listed
  cases i.callsPrimitive with
  | false => exact iff_of_true ⟨_, rfl⟩ nofun
  | true => cases Primitive.ofNumber? i.d <;> simp

theorem exists_lines_iff (width addr : Nat) {code : List Instruction} :
    (∃ text, lines width addr code = .ok text) ↔ ∀ i ∈ code, i.Listed := by
  induction code generalizing addr with
  | nil => exact iff_of_true ⟨_, rfl⟩ nofun
  | cons i rest ih =>
    rw [List.forall_mem_cons, ← exists_instruction_iff, ← ih (addr + 1), lines]
    cases instruction i with
    | error e => simp [bind, Except.bind]
    | ok first => cases lines width (addr + 1) rest <;> simp [bind, Except.bind, pure, Except.pure]

/-- Code has a listing if all its instructions have lines in one. -/
theorem exists_text_iff {staticSize entry : Int} {code : List Instruction} :
    (∃ listing, text staticSize entry code = .ok listing) ↔ ∀ i ∈ code, i.Listed := by
  rw [← exists_lines_iff (toString (code.length - 1)).length 0, text]
  cases lines (toString (code.length - 1)).length 0 code <;>
    simp [bind, Except.bind, pure, Except.pure]

end Machine.Listing

/-- Whether an instruction that calls a primitive is the call of one that there is, with nothing
else in it. -/
def Machine.Instruction.Legible (i : Instruction) : Prop := i.callsPrimitive → ∃ p, i = prim p

namespace Machine.Instruction

theorem legible_prim (p : Primitive) : (prim p).Legible := fun _ => ⟨p, rfl⟩

theorem legible_of_op {i : Instruction} (call : i.op ≠ .call)
    (calli : i.op ≠ .calli) : i.Legible := by
  intro calls
  simp [callsPrimitive, call, calli] at calls

theorem legible_of_register {i : Instruction} (other : i.r ≠ .pb) : i.Legible := by
  intro calls
  simp [callsPrimitive, other] at calls

theorem Legible.listed {i : Instruction} (h : i.Legible) : i.Listed := by
  intro calls
  obtain ⟨p, rfl⟩ := h calls
  rw [prim, Primitive.ofNumber?_number]
  rfl

end Machine.Instruction

namespace Generation

/-- Whether an item is linked to a legible instruction. -/
def Legible : Item → Prop
  | .instr i => i.Legible
  | .call _ _ => True

theorem legible_simple {Q : Home → MethodHead → Prop} {item : Item} (h : Simple Q item) :
    Legible item := by
  cases h with
  | prim p => exact Instruction.legible_prim p
  | literal | load | self => exact Instruction.legible_of_op nofun nofun
  | call => trivial

theorem legible_ordinary {Q : Home → MethodHead → Prop} {words : Int} {arity : Nat} {item : Item}
    (h : Ordinary Q words arity item) : Legible item := by
  cases h with
  | simple simple => exact legible_simple simple
  | store | pop | ret => exact Instruction.legible_of_op nofun nofun

theorem legible_formal {item : Item} (h : Tree.Formal item) : Legible item := by
  cases h with
  | prim p => exact Instruction.legible_prim p
  | copy | jump | jumpIf => exact Instruction.legible_of_op nofun nofun

theorem legible_of_linked {env : Env} {item : Item} {i : Instruction} (h : Linked env item i)
    (legible : Legible item) : i.Legible := by
  cases item with
  | instr j =>
    cases h
    exact legible
  | call receiver method =>
    obtain ⟨site, address, -, -, rfl⟩ := h
    exact Instruction.legible_of_register nofun

theorem legible_prelude (staticSize entry : Nat) : ∀ i ∈ prelude staticSize entry, i.Legible := by
  simp only [prelude, List.forall_mem_cons]
  exact ⟨Instruction.legible_of_op nofun nofun, Instruction.legible_of_op nofun nofun,
    Instruction.legible_prim _, Instruction.legible_of_register nofun,
    Instruction.legible_of_op nofun nofun, nofun⟩

end Generation

namespace Accepted

variable {p : Program} {c : Compilation} {o : ObjectCode}

/-- Every call of a primitive in the object code of an accepted program was emitted as one. -/
theorem legible (h : Accepted p c o) : ∀ i ∈ o.code, i.Legible := by
  obtain ⟨main, code, generated⟩ := h.generated
  obtain ⟨body, linked, whole⟩ := generated.linked
  have legible : ∀ item ∈ code, Generation.Legible item := by
    intro item hi
    rcases h.toChecked.items rfl generated.returning generated.methods item hi with
      ⟨words, arity, ordinary⟩ | formal
    · exact legible_ordinary ordinary
    · exact legible_formal formal
  rw [whole, List.forall_mem_append]
  refine ⟨legible_prelude _ _, fun i hi => ?_⟩
  obtain ⟨item, hitem, both⟩ := exists_of_forall₂ linked.flip hi
  exact legible_of_linked both (legible item hitem)

/-- The object code of an accepted program has a listing. -/
theorem exists_listing (h : Accepted p c o) : ∃ listing, o.listing = .ok listing :=
  Listing.exists_text_iff.mpr fun i hi => (h.legible i hi).listed

end Accepted

end JamCompiler

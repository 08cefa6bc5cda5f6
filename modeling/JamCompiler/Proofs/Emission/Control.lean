import JamCompiler.Proofs.Emission.Items

/-!
# Control in trees

Where control can go from the items of a tree: to an address of the tree, or to the one after it.
Jumps are patched to addresses that depend on everything between, so this goes by induction on the
forms, each of which says where its own jumps go. Nothing is said here of where the calls go; a call
that returns goes on with the next item.
-/

namespace JamCompiler

open Machine

/-- Whether control can go from an instruction at an address to another address, apart from what a
call runs before it returns. -/
def Machine.Instruction.LeadsTo (i : Instruction) (a x : Nat) : Prop :=
  match i.op with
  | .jump => (x : Int) = i.d
  | .jumpif => x = a + 1 ∨ (x : Int) = i.d
  | .jumpi => True
  | .ret | .halt => False
  | _ => x = a + 1

/-- Where an instruction jumps to, if it does. -/
def Machine.Instruction.target? (i : Instruction) : Option Int :=
  match i.op with
  | .jump | .jumpif => some i.d
  | _ => none

/-- The same for an item of code. -/
def Item.LeadsTo : Item → Nat → Nat → Prop
  | .instr i, a, x => i.LeadsTo a x
  | .call .., a, x => x = a + 1

def Item.target? : Item → Option Int
  | .instr i => i.target?
  | .call .. => none

namespace Emission

/-- Control goes on with the next item after an item. -/
structure Next (item : Item) : Prop where
  leadsTo_iff : ∀ a x, item.LeadsTo a x ↔ x = a + 1
  target : item.target? = none

section Edges

variable {Q : Home → MethodHead → Prop} {item : Item} {a x : Nat}

theorem next_prim (p : Primitive) : Next (prim p) := ⟨fun _ _ => Iff.rfl, rfl⟩

theorem next_copy : Next (.instr { op := .load, r := .st, d := -1 }) := ⟨fun _ _ => Iff.rfl, rfl⟩

theorem Simple.next (h : Simple Q item) : Next item := by
  cases h <;> exact ⟨fun _ _ => Iff.rfl, rfl⟩

/-- Control goes on after each ordinary item but a return. -/
theorem Ordinary.next {words : Int} {arity : Nat} (h : Ordinary Q words arity item) :
    item = returnOf words arity ∨ Next item := by
  cases h with
  | ret => exact .inl rfl
  | simple simple => exact .inr simple.next
  | store | pop => exact .inr ⟨fun _ _ => Iff.rfl, rfl⟩

theorem jump_leadsTo {target : Nat} : (jump target).LeadsTo a x ↔ x = target := Int.natCast_inj

theorem jumpIf_leadsTo {value : Bool} {target : Nat} :
    (jumpIf value target).LeadsTo a x ↔ x = a + 1 ∨ x = target :=
  or_congr Iff.rfl Int.natCast_inj

end Edges

/-- Whether an item stands at an address in code that stands from a base on. -/
def At (code : Code) (base a : Nat) (item : Item) : Prop :=
  base ≤ a ∧ code[a - base]? = some item

section At

variable {code code' : Code} {base a : Nat} {item item' : Item}

theorem At.lt (h : At code base a item) : base ≤ a ∧ a < base + code.length := by
  have within := (List.getElem?_eq_some_iff.mp h.2).1
  have low := h.1
  omega

theorem at_nil : ¬ At [] base a item := fun h => by simp [At] at h

theorem at_append : At (code ++ code') base a item ↔
    At code base a item ∨ At code' (base + code.length) a item := by
  constructor
  · rintro ⟨low, found⟩
    rw [List.getElem?_append] at found
    split at found
    · exact .inl ⟨low, found⟩
    · refine .inr ⟨by omega, ?_⟩
      rwa [Nat.sub_add_eq]
  · rintro (h | h)
    · have within := h.lt
      exact ⟨h.1, by rw [List.getElem?_append_left (by omega)]; exact h.2⟩
    · have low := h.1
      refine ⟨by omega, ?_⟩
      rw [List.getElem?_append_right (by omega), ← Nat.sub_add_eq]
      exact h.2

theorem at_cons : At (item' :: code) base a item ↔
    (a = base ∧ item = item') ∨ At code (base + 1) a item := by
  rw [← List.singleton_append, at_append]
  refine or_congr ⟨fun h => ?_, ?_⟩ Iff.rfl
  · have within := h.lt
    obtain rfl : a = base := by
      simp only [List.length_singleton] at within
      omega
    have found := h.2
    rw [Nat.sub_self] at found
    exact ⟨rfl, (Option.some.inj found).symm⟩
  · rintro ⟨rfl, rfl⟩
    exact ⟨Nat.le_refl _, by simp⟩

theorem at_singleton : At [item'] base a item ↔ a = base ∧ item = item' := by
  rw [at_cons, or_iff_left at_nil]

end At

/-- Whether control can go on from an item, but only to addresses from one to another. -/
structure Stays (low high a : Nat) (item : Item) : Prop where
  goes : ∃ x, item.LeadsTo a x
  stays : ∀ x, item.LeadsTo a x → low ≤ x ∧ x ≤ high
  target : ∀ d, item.target? = some d → ∃ x : Nat, d = x ∧ low ≤ x ∧ x ≤ high

section Stays

variable {low high low' high' a target : Nat} {item : Item}

theorem Stays.mono (h : Stays low high a item) (le : low' ≤ low) (ge : high ≤ high') :
    Stays low' high' a item where
  goes := h.goes
  stays x leads := by
    have bounds := h.stays x leads
    omega
  target d jumps := by
    obtain ⟨x, rfl, bounds⟩ := h.target d jumps
    exact ⟨x, rfl, by omega⟩

theorem Next.stays (h : Next item) (le : low ≤ a + 1) (ge : a + 1 ≤ high) :
    Stays low high a item where
  goes := ⟨a + 1, (h.leadsTo_iff _ _).mpr rfl⟩
  stays x leads := by
    obtain rfl := (h.leadsTo_iff _ _).mp leads
    exact ⟨le, ge⟩
  target d jumps := by
    rw [h.target] at jumps
    cases jumps

theorem stays_jump (le : low ≤ target) (ge : target ≤ high) : Stays low high a (jump target) where
  goes := ⟨target, jump_leadsTo.mpr rfl⟩
  stays x leads := by
    obtain rfl := jump_leadsTo.mp leads
    exact ⟨le, ge⟩
  target d jumps := by
    cases jumps
    exact ⟨target, rfl, le, ge⟩

theorem stays_jumpIf {value : Bool} (le : low ≤ a + 1) (ge : a + 1 ≤ high) (le' : low ≤ target)
    (ge' : target ≤ high) : Stays low high a (jumpIf value target) where
  goes := ⟨a + 1, jumpIf_leadsTo.mpr (.inl rfl)⟩
  stays x leads := by
    rcases jumpIf_leadsTo.mp leads with rfl | rfl
    · exact ⟨le, ge⟩
    · exact ⟨le', ge'⟩
  target d jumps := by
    cases jumps
    exact ⟨target, rfl, le', ge'⟩

end Stays

namespace Tree

variable {base a : Nat} {item : Item}

theorem at_seq {first second : Tree} : At ((seq first second).code base) base a item ↔
    At (first.code base) base a item ∨
      At (second.code (base + first.size)) (base + first.size) a item := by
  simp only [Tree.code, at_append, length_code]

theorem at_shortCut {decides : Bool} {first second : Tree} {p : Primitive} :
    At ((shortCut decides first second p).code base) base a item ↔
      At (first.code base) base a item ∨
      (a = base + first.size ∧ item = .instr { op := .load, r := .st, d := -1 }) ∨
      (a = base + first.size + 1 ∧
        item = jumpIf decides (base + first.size + 2 + second.size + 1)) ∨
      At (second.code (base + first.size + 2)) (base + first.size + 2) a item ∨
      (a = base + first.size + 2 + second.size ∧ item = prim p) := by
  simp only [Tree.code, at_append, at_cons, at_nil, or_false, List.length_append, length_code,
    List.length_cons, List.length_nil, or_assoc, jumpIf, ← Nat.add_assoc]

theorem at_ifThen {test body : Tree} : At ((ifThen test body).code base) base a item ↔
    At (test.code base) base a item ∨
    (a = base + test.size ∧ item = jumpIf false (base + test.size + 1 + body.size + 1)) ∨
    At (body.code (base + test.size + 1)) (base + test.size + 1) a item ∨
    (a = base + test.size + 1 + body.size ∧
      item = jump (base + test.size + 1 + body.size + 1)) := by
  simp only [Tree.code, at_append, at_singleton, List.length_append, length_code,
    List.length_singleton, or_assoc, ← Nat.add_assoc]

theorem at_ifElse {test body other : Tree} : At ((ifElse test body other).code base) base a item ↔
    At (test.code base) base a item ∨
    (a = base + test.size ∧ item = jumpIf false (base + test.size + 1 + body.size + 1)) ∨
    At (body.code (base + test.size + 1)) (base + test.size + 1) a item ∨
    (a = base + test.size + 1 + body.size ∧
      item = jump (base + test.size + 1 + body.size + 1 + other.size)) ∨
    At (other.code (base + test.size + 1 + body.size + 1)) (base + test.size + 1 + body.size + 1)
      a item := by
  simp only [Tree.code, at_append, at_singleton, List.length_append, length_code,
    List.length_singleton, or_assoc, ← Nat.add_assoc]

theorem at_loop {test body : Tree} : At ((loop test body).code base) base a item ↔
    (a = base ∧ item = jump (base + 1 + body.size)) ∨
    At (body.code (base + 1)) (base + 1) a item ∨
    At (test.code (base + 1 + body.size)) (base + 1 + body.size) a item ∨
    (a = base + 1 + body.size + test.size ∧ item = jumpIf true (base + 1)) := by
  simp only [Tree.code, at_append, at_singleton, List.length_append, length_code,
    List.length_singleton, or_assoc, ← Nat.add_assoc]

/-- Control goes from the items of a tree to its addresses or to the one after it. -/
theorem stays {Q : Home → MethodHead → Prop} {words : Int} {arity : Nat} {t : Tree}
    (h : t.All (Ordinary Q words arity)) (found : At (t.code base) base a item) :
    (∃ words arity, item = returnOf words arity) ∨ Stays base (base + t.size) a item := by
  induction t generalizing base with
  | straight items =>
    have within := found.lt
    simp only [Tree.code] at within
    rcases (h item (List.mem_of_getElem? found.2)).next with rfl | next
    · exact .inl ⟨_, _, rfl⟩
    · exact .inr (next.stays (by omega) (by simp only [size]; omega))
  | marked mark code ih => exact ih h found
  | seq first second ih ih' =>
    simp only [size]
    rcases at_seq.mp found with found | found
    · exact (ih h.1 found).imp_right fun inner => inner.mono (by omega) (by omega)
    · exact (ih' h.2 found).imp_right fun inner => inner.mono (by omega) (by omega)
  | shortCut decides first second p ih ih' =>
    simp only [size]
    rcases at_shortCut.mp found with found | ⟨rfl, rfl⟩ | ⟨rfl, rfl⟩ | found | ⟨rfl, rfl⟩
    · exact (ih h.1 found).imp_right fun inner => inner.mono (by omega) (by omega)
    · exact .inr (next_copy.stays (by omega) (by omega))
    · exact .inr (stays_jumpIf (by omega) (by omega) (by omega) (by omega))
    · exact (ih' h.2 found).imp_right fun inner => inner.mono (by omega) (by omega)
    · exact .inr ((next_prim p).stays (by omega) (by omega))
  | ifThen test body ih ih' =>
    simp only [size]
    rcases at_ifThen.mp found with found | ⟨rfl, rfl⟩ | found | ⟨rfl, rfl⟩
    · exact (ih h.1 found).imp_right fun inner => inner.mono (by omega) (by omega)
    · exact .inr (stays_jumpIf (by omega) (by omega) (by omega) (by omega))
    · exact (ih' h.2 found).imp_right fun inner => inner.mono (by omega) (by omega)
    · exact .inr (stays_jump (by omega) (by omega))
  | ifElse test body other ih ih' ih'' =>
    simp only [size]
    rcases at_ifElse.mp found with found | ⟨rfl, rfl⟩ | found | ⟨rfl, rfl⟩ | found
    · exact (ih h.1 found).imp_right fun inner => inner.mono (by omega) (by omega)
    · exact .inr (stays_jumpIf (by omega) (by omega) (by omega) (by omega))
    · exact (ih' h.2.1 found).imp_right fun inner => inner.mono (by omega) (by omega)
    · exact .inr (stays_jump (by omega) (by omega))
    · exact (ih'' h.2.2 found).imp_right fun inner => inner.mono (by omega) (by omega)
  | loop test body ih ih' =>
    simp only [size]
    rcases at_loop.mp found with ⟨rfl, rfl⟩ | found | found | ⟨rfl, rfl⟩
    · exact .inr (stays_jump (by omega) (by omega))
    · exact (ih' h.2 found).imp_right fun inner => inner.mono (by omega) (by omega)
    · exact (ih h.1 found).imp_right fun inner => inner.mono (by omega) (by omega)
    · exact .inr (stays_jumpIf (by omega) (by omega) (by omega) (by omega))

end Tree

end Emission

end JamCompiler

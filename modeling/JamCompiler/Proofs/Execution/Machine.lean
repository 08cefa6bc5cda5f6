import JamCompiler.Emission
import Mathlib.Logic.Function.Basic

/-!
# Execution

What the machine does with the code of a method that calls no other. It keeps the words of the
current frame on a stack, from the first argument up; the words of the static segment and those of
objects are apart from it. Integers have no bounds. An instruction that has no next state stops the
machine: a return, which is the end, or one that is stuck, as division by zero is.
-/

namespace JamCompiler.Machine

open Emission (boolWord)

/-- The word with a number from the bottom of a stack, whose first word is the topmost. -/
def word? : List Int → Nat → Option Int
  | [], _ => none
  | w :: rest, i => if i = rest.length then some w else word? rest i

/-- A stack with another word in the place with a number. -/
def putWord? : List Int → Nat → Int → Option (List Int)
  | [], _, _ => none
  | w :: rest, i, v =>
    if i = rest.length then some (v :: rest) else (putWord? rest i v).map (w :: ·)

section Words

variable {stack stack' : List Int} {i j : Nat} {v w : Int}

theorem lt_of_word (h : word? stack i = some w) : i < stack.length := by
  induction stack with
  | nil => cases h
  | cons x rest ih =>
    rw [word?] at h
    split at h
    · rename_i same
      simp [same]
    · have lt := ih h
      simp only [List.length_cons]
      omega

theorem word_cons_self : word? (v :: stack) stack.length = some v := if_pos rfl

theorem word_cons (h : i < stack.length) : word? (v :: stack) i = word? stack i :=
  if_neg (Nat.ne_of_lt h)

/-- Words further up do not matter. -/
theorem word_drop (n : Nat) (h : i < stack.length - n) :
    word? (stack.drop n) i = word? stack i := by
  induction n generalizing stack with
  | zero => rfl
  | succ n ih =>
    cases stack with
    | nil => rfl
    | cons x rest =>
      simp only [List.length_cons] at h
      rw [List.drop_succ_cons, ih (by omega), word_cons (by omega)]

theorem exists_word (h : i < stack.length) : ∃ w, word? stack i = some w := by
  induction stack with
  | nil => cases h
  | cons x rest ih =>
    rw [word?]
    split
    · exact ⟨x, rfl⟩
    · simp only [List.length_cons] at h
      exact ih (by omega)

theorem exists_putWord (h : i < stack.length) (v : Int) :
    ∃ stack', putWord? stack i v = some stack' := by
  induction stack with
  | nil => cases h
  | cons x rest ih =>
    rw [putWord?]
    split
    · exact ⟨_, rfl⟩
    · simp only [List.length_cons] at h
      obtain ⟨rest', put⟩ := ih (by omega)
      exact ⟨x :: rest', by rw [put]; rfl⟩

theorem length_putWord (h : putWord? stack i v = some stack') : stack'.length = stack.length := by
  induction stack generalizing stack' with
  | nil => cases h
  | cons x rest ih =>
    rw [putWord?] at h
    split at h
    · cases h
      rfl
    · obtain ⟨rest', put, rfl⟩ := Option.map_eq_some_iff.mp h
      rw [List.length_cons, List.length_cons, ih put]

theorem word_putWord (h : putWord? stack i v = some stack') :
    word? stack' j = if j = i then some v else word? stack j := by
  induction stack generalizing stack' with
  | nil => cases h
  | cons x rest ih =>
    rw [putWord?] at h
    split at h
    · rename_i top
      cases h
      rw [word?, word?, top]
      split <;> rfl
    · rename_i notTop
      obtain ⟨rest', put, rfl⟩ := Option.map_eq_some_iff.mp h
      rw [word?, word?, length_putWord put]
      split
      · rename_i here
        rw [if_neg (by omega)]
      · exact ih put

end Words

/-- Where the machine is: the next instruction, the stack, how many words of it are below the frame,
the static segment, the words of all objects by their addresses, and the address of the current
object. -/
structure State where
  pc : Nat
  stack : List Int
  lb : Nat
  statics : Int → Int
  heap : Int → Int
  object : Int

/-- What a primitive does with the words on top of the stack. -/
def Primitive.compute? : Primitive → List Int → Option (List Int)
  | .neg, a :: rest => some (-a :: rest)
  | .not, a :: rest => some (boolWord (a ≠ 1) :: rest)
  | .and, b :: a :: rest => some (boolWord (a = 1 && b = 1) :: rest)
  | .or, b :: a :: rest => some (boolWord (a = 1 || b = 1) :: rest)
  | .add, b :: a :: rest => some ((a + b) :: rest)
  | .sub, b :: a :: rest => some ((a - b) :: rest)
  | .mult, b :: a :: rest => some ((a * b) :: rest)
  | .div, b :: a :: rest => if b = 0 then none else some (a.tdiv b :: rest)
  | .mod, b :: a :: rest => if b = 0 then none else some (a.tmod b :: rest)
  | .lt, b :: a :: rest => some (boolWord (a < b) :: rest)
  | .le, b :: a :: rest => some (boolWord (a ≤ b) :: rest)
  | .ge, b :: a :: rest => some (boolWord (a ≥ b) :: rest)
  | .gt, b :: a :: rest => some (boolWord (a > b) :: rest)
  | .eq, b :: a :: rest => some (boolWord (a = b) :: rest)
  | .ne, b :: a :: rest => some (boolWord (a ≠ b) :: rest)
  | _, _ => none

namespace State

/-- The word at an offset from a register. -/
def load? (s : State) : Register → Int → Option Int
  | .sb, d => some (s.statics d)
  | .ob, d => some (s.heap (s.object + d))
  | .lb, d => if 0 ≤ s.lb + d then word? s.stack (s.lb + d).toNat else none
  | .st, d => if 0 ≤ s.stack.length + d then word? s.stack (s.stack.length + d).toNat else none
  | _, _ => none

/-- Stores a word at an offset from a register. -/
def store? (s : State) (r : Register) (d v : Int) : Option State :=
  match r with
  | .sb => some { s with statics := Function.update s.statics d v }
  | .ob => some { s with heap := Function.update s.heap (s.object + d) v }
  | .lb =>
    if 0 ≤ s.lb + d then
      (putWord? s.stack (s.lb + d).toNat v).map fun stack => { s with stack := stack }
    else none
  | _ => none

/-- Goes on with the next instruction and another stack. -/
def next (s : State) (stack : List Int) : State := { s with pc := s.pc + 1, stack := stack }

/-- Calls a primitive. -/
def call? (s : State) (p : Primitive) : Option State :=
  match p, s.stack with
  | .fieldref, offset :: object :: rest => some (s.next (s.heap (object + offset) :: rest))
  | .fieldupd, v :: offset :: object :: rest =>
    some { s.next rest with heap := Function.update s.heap (object + offset) v }
  | p, stack => (p.compute? stack).map s.next

/-- Carries out an instruction. -/
def execute? (s : State) (i : Instruction) : Option State :=
  match i.op, i.r, s.stack with
  | .loadl, _, stack => some (s.next (i.d :: stack))
  | .load, r, stack => (s.load? r i.d).map fun w => s.next (w :: stack)
  | .loada, .ob, stack => some (s.next ((s.object + i.d) :: stack))
  | .store, r, v :: rest => (s.next rest).store? r i.d v
  | .pop, _, stack =>
    if i.n = 0 ∧ i.d.toNat ≤ stack.length then some (s.next (stack.drop i.d.toNat)) else none
  | .jump, .cb, _ => some { s with pc := i.d.toNat }
  | .jumpif, .cb, v :: rest =>
    some { s with pc := if v = i.n then i.d.toNat else s.pc + 1, stack := rest }
  | .call, .pb, _ => (Primitive.ofNumber? i.d).bind s.call?
  | _, _, _ => none

def step? (code : List Instruction) (s : State) : Option State :=
  (code[s.pc]?).bind s.execute?

/-- What is returned, if the next instruction is a return: a word, or nothing. -/
def returned? (code : List Instruction) (s : State) : Option (Option Int) :=
  (code[s.pc]?).bind fun i =>
    if i.op = .ret then if i.n = 0 then some none else s.stack.head?.map some else none

def run? (code : List Instruction) : Nat → State → Option State
  | 0, s => some s
  | n + 1, s => (s.step? code).bind (run? code n)

end State

section Runs

variable {code : List Instruction} {s s' s'' t : State} {m n : Nat}

open State

theorem run_add (h : run? code m s = some s') : run? code (m + n) s = run? code n s' := by
  induction m generalizing s with
  | zero =>
    cases h
    rw [Nat.zero_add]
  | succ m ih =>
    obtain ⟨s₁, step, rest⟩ := Option.bind_eq_some_iff.mp h
    rw [Nat.succ_add, run?, step, Option.bind_some, ih rest]

/-- Whether the machine gets from one state to another. -/
def RunsTo (code : List Instruction) (s s' : State) : Prop := ∃ n, run? code n s = some s'

theorem RunsTo.refl (s : State) : RunsTo code s s := ⟨0, rfl⟩

theorem RunsTo.step (h : s.step? code = some s') : RunsTo code s s' := ⟨1, by rw [run?, h]; rfl⟩

theorem RunsTo.trans (h : RunsTo code s s') (h' : RunsTo code s' s'') : RunsTo code s s'' := by
  obtain ⟨m, run⟩ := h
  obtain ⟨n, run'⟩ := h'
  exact ⟨m + n, (run_add run).trans run'⟩

theorem RunsTo.head (step : s.step? code = some s') (h : RunsTo code s' s'') : RunsTo code s s'' :=
  (RunsTo.step step).trans h

/-- Whether the machine comes to a return in at most so many steps. -/
def Halts (code : List Instruction) (n : Nat) (s : State) : Prop :=
  ∃ k ≤ n, ∃ t, run? code k s = some t ∧ (returned? code t).isSome

/-- A return is the end. -/
theorem step_of_returned (h : (returned? code s).isSome) : s.step? code = none := by
  obtain ⟨v, h⟩ := Option.isSome_iff_exists.mp h
  obtain ⟨i, hi, h⟩ := Option.bind_eq_some_iff.mp h
  split at h
  · rename_i ret
    rw [step?, hi, Option.bind_some, execute?, ret]
  · cases h

/-- Fewer steps are left after a step. -/
theorem Halts.next (h : Halts code n s) (step : s.step? code = some s') :
    ∃ m < n, Halts code m s' := by
  obtain ⟨k, le, t, run, ends⟩ := h
  cases k with
  | zero =>
    cases run
    rw [step_of_returned ends] at step
    cases step
  | succ k =>
    rw [run?, step, Option.bind_some] at run
    exact ⟨n - 1, by omega, k, by omega, t, run, ends⟩

theorem Halts.mono (h : Halts code m s) (le : m ≤ n) : Halts code n s := by
  obtain ⟨k, le', rest⟩ := h
  exact ⟨k, Nat.le_trans le' le, rest⟩

/-- The machine still comes to its end after a part of its run. -/
theorem Halts.after (h : Halts code n s) (runs : RunsTo code s s') : Halts code n s' := by
  obtain ⟨m, run⟩ := runs
  induction m generalizing s n with
  | zero =>
    cases run
    exact h
  | succ m ih =>
    obtain ⟨s₁, step, rest⟩ := Option.bind_eq_some_iff.mp run
    obtain ⟨n', fewer, later⟩ := h.next step
    exact (ih later rest).mono (Nat.le_of_lt fewer)

/-- A state in which the machine stops without a return. -/
def Stuck (code : List Instruction) (s : State) : Prop :=
  s.step? code = none ∧ returned? code s = none

theorem not_halts_of_stuck (runs : RunsTo code s s') (stuck : Stuck code s') :
    ¬ Halts code n s := by
  intro halts
  obtain ⟨k, -, t, run, ends⟩ := halts.after runs
  cases k with
  | zero =>
    cases run
    rw [stuck.2] at ends
    cases ends
  | succ k =>
    rw [run?, stuck.1] at run
    cases run

/-- The machine has one end at most. -/
theorem eq_of_returned (runs : RunsTo code s s') (runs' : RunsTo code s s'')
    (ends : (returned? code s').isSome) (ends' : (returned? code s'').isSome) : s' = s'' := by
  obtain ⟨m, run⟩ := runs
  obtain ⟨n, run'⟩ := runs'
  have stays {k : Nat} {s t : State} (ends : (returned? code s).isSome)
      (run : run? code k s = some t) :
      s = t := by
    cases k with
    | zero => exact Option.some.inj run
    | succ k =>
      rw [run?, step_of_returned ends] at run
      cases run
  rcases Nat.le_total m n with le | le
  · obtain ⟨k, rfl⟩ := Nat.exists_eq_add_of_le le
    exact stays ends ((run_add run).symm.trans run')
  · obtain ⟨k, rfl⟩ := Nat.exists_eq_add_of_le le
    exact (stays ends' ((run_add run').symm.trans run)).symm

end Runs

end JamCompiler.Machine

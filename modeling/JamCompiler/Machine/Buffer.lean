import JamCompiler.Machine.Instruction

/-!
# Code buffers

Code under construction. Instructions are added at the end, and the operand of one that is there
can be changed. Addresses count from zero; negative ones count from the end, so that `-1` is the
instruction added last.
-/

namespace JamCompiler.Machine

structure Buffer where
  code : List Instruction := []

namespace Buffer

/-- The address that the next instruction gets. -/
def next (b : Buffer) : Nat := b.code.length

def emit (b : Buffer) (i : Instruction) : Buffer := ⟨b.code ++ [i]⟩

/-- The address meant, if it is that of an instruction. -/
def address? (b : Buffer) (addr : Int) : Option Nat :=
  let k := if addr < 0 then addr + b.next else addr
  if 0 ≤ k && k < b.next then some k.toNat else none

/-- Sets the operand `d` of an instruction. -/
def patch? (b : Buffer) (addr d : Int) : Option Buffer :=
  (b.address? addr).map fun k => ⟨b.code.modify k ({ · with d := d })⟩

theorem patch?_append (front back : List Instruction) (i : Instruction) (d : Int) :
    (⟨front ++ i :: back⟩ : Buffer).patch? front.length d =
      some ⟨front ++ { i with d := d } :: back⟩ := by
  have meant : (⟨front ++ i :: back⟩ : Buffer).address? front.length = some front.length := by
    simp [address?, next]
    omega
  have changed : (front ++ i :: back).modify front.length ({ · with d := d }) =
      front ++ { i with d := d } :: back := by
    simp [List.modify_eq_take_cons_drop]
  simp [patch?, meant, changed]

end Buffer

end JamCompiler.Machine

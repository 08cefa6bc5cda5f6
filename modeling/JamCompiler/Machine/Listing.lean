import JamCompiler.Machine.Instruction

/-!
# Listings

Code as text: a heading, then a line for each instruction with its address. A call of a primitive
shows the primitive's name in place of the operands, so code that calls a primitive that does not
exist has no listing.
-/

namespace JamCompiler.Machine

/-- The number that names no primitive. -/
structure UnknownPrimitive where
  number : Int
  deriving DecidableEq

def UnknownPrimitive.message (u : UnknownPrimitive) : String := s!"{u.number} is not a valid Prim"

namespace Listing

def padLeft (width : Nat) (text : String) : String :=
  String.ofList (List.replicate (width - text.length) ' ') ++ text

def padRight (width : Nat) (text : String) : String :=
  text ++ String.ofList (List.replicate (width - text.length) ' ')

/-- The operation fills seven columns. -/
def opWidth : Nat := 7

def instruction (i : Instruction) : Except UnknownPrimitive String :=
  let op := padRight opWidth i.op.text
  if i.callsPrimitive then
    match Primitive.ofNumber? i.d with
    | some p => .ok s!"{op} {p.text}"
    | none => .error ⟨i.d⟩
  else .ok s!"{op} {i.n} {i.r.text} {i.d}"

/-- The lines of code that starts at an address; addresses are padded to a width. -/
def lines (width addr : Nat) : List Instruction → Except UnknownPrimitive (List String)
  | [] => .ok []
  | i :: rest => do
    let text ← instruction i
    let more ← lines width (addr + 1) rest
    return (padLeft width (toString addr) ++ "  " ++ text) :: more

def heading (staticSize entry : Int) : String :=
  s!"; static segment: {staticSize} word(s), entry at {entry}"

/-- The listing of code; each line ends with a line feed. -/
def text (staticSize entry : Int) (code : List Instruction) : Except UnknownPrimitive String := do
  let width := (toString (code.length - 1)).length
  let body ← lines width 0 code
  return String.join ((heading staticSize entry :: body).map (· ++ "\n"))

end Listing

end JamCompiler.Machine

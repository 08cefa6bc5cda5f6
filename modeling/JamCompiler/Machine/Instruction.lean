/-!
# Instructions of the mJAM machine

An instruction has an operation, a small operand `n`, a register `r` and an operand `d`, which is
any integer. Operations, registers and primitive routines have numbers, by which a primitive is
called: a call whose register is `pb` calls the primitive numbered `d`.
-/

namespace JamCompiler.Machine

inductive Opcode
  | load
  | loada
  | loadi
  | loadl
  | store
  | storei
  | call
  | calli
  | ret
  | nop
  | push
  | pop
  | jump
  | jumpi
  | jumpif
  | halt
  deriving DecidableEq

namespace Opcode

def text : Opcode → String
  | load => "LOAD"
  | loada => "LOADA"
  | loadi => "LOADI"
  | loadl => "LOADL"
  | store => "STORE"
  | storei => "STOREI"
  | call => "CALL"
  | calli => "CALLI"
  | ret => "RETURN"
  | nop => "NOP"
  | push => "PUSH"
  | pop => "POP"
  | jump => "JUMP"
  | jumpi => "JUMPI"
  | jumpif => "JUMPIF"
  | halt => "HALT"

def all : List Opcode :=
  [load, loada, loadi, loadl, store, storei, call, calli, ret, nop, push, pop, jump, jumpi,
   jumpif, halt]

def ofText? (text : String) : Option Opcode := all.find? (·.text == text)

theorem ofText?_text (op : Opcode) : ofText? op.text = some op := by
  cases op <;> rfl

end Opcode

inductive Register
  | zr
  | cb
  | ct
  | pb
  | pt
  | sb
  | st
  | hb
  | ht
  | lb
  | ob
  | cp
  deriving DecidableEq

namespace Register

def text : Register → String
  | zr => "ZR"
  | cb => "CB"
  | ct => "CT"
  | pb => "PB"
  | pt => "PT"
  | sb => "SB"
  | st => "ST"
  | hb => "HB"
  | ht => "HT"
  | lb => "LB"
  | ob => "OB"
  | cp => "CP"

def all : List Register := [zr, cb, ct, pb, pt, sb, st, hb, ht, lb, ob, cp]

def ofText? (text : String) : Option Register := all.find? (·.text == text)

theorem ofText?_text (r : Register) : ofText? r.text = some r := by
  cases r <;> rfl

end Register

inductive Primitive
  | id
  | not
  | and
  | or
  | succ
  | pred
  | neg
  | add
  | sub
  | mult
  | div
  | mod
  | lt
  | le
  | ge
  | gt
  | eq
  | ne
  | eol
  | eof
  | get
  | put
  | geteol
  | puteol
  | getint
  | putint
  | putintnl
  | alloc
  | dispose
  | newobj
  | newarr
  | arrayref
  | arrayupd
  | fieldref
  | fieldupd
  | arraylen
  deriving DecidableEq

namespace Primitive

def text : Primitive → String
  | id => "id"
  | not => "not"
  | and => "and"
  | or => "or"
  | succ => "succ"
  | pred => "pred"
  | neg => "neg"
  | add => "add"
  | sub => "sub"
  | mult => "mult"
  | div => "div"
  | mod => "mod"
  | lt => "lt"
  | le => "le"
  | ge => "ge"
  | gt => "gt"
  | eq => "eq"
  | ne => "ne"
  | eol => "eol"
  | eof => "eof"
  | get => "get"
  | put => "put"
  | geteol => "geteol"
  | puteol => "puteol"
  | getint => "getint"
  | putint => "putint"
  | putintnl => "putintnl"
  | alloc => "alloc"
  | dispose => "dispose"
  | newobj => "newobj"
  | newarr => "newarr"
  | arrayref => "arrayref"
  | arrayupd => "arrayupd"
  | fieldref => "fieldref"
  | fieldupd => "fieldupd"
  | arraylen => "arraylen"

/-- In the order of their numbers, from zero. -/
def all : List Primitive :=
  [id, not, and, or, succ, pred, neg, add, sub, mult, div, mod, lt, le, ge, gt, eq, ne, eol, eof,
   get, put, geteol, puteol, getint, putint, putintnl, alloc, dispose, newobj, newarr, arrayref,
   arrayupd, fieldref, fieldupd, arraylen]

def ofText? (text : String) : Option Primitive := all.find? (·.text == text)

theorem ofText?_text (p : Primitive) : ofText? p.text = some p := by
  cases p <;> rfl

def number (p : Primitive) : Nat := p.ctorIdx

def ofNumber? (n : Int) : Option Primitive := if 0 ≤ n then all[n.toNat]? else none

theorem ofNumber?_number (p : Primitive) : ofNumber? p.number = some p := by
  cases p <;> rfl

end Primitive

structure Instruction where
  op : Opcode
  n : Int := 0
  r : Register := .zr
  d : Int := 0
  deriving DecidableEq

namespace Instruction

/-- A call of a primitive. -/
def prim (p : Primitive) : Instruction := { op := .call, r := .pb, d := p.number }

/-- A literal on the stack. -/
def literal (value : Int) : Instruction := { op := .loadl, d := value }

/-- Whether an instruction's operand names a primitive. -/
def callsPrimitive (i : Instruction) : Bool := (i.op = .call || i.op = .calli) && i.r = .pb

end Instruction

end JamCompiler.Machine

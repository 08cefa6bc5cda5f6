import JamCompiler.Text.Quoted

/-!
# Reading UTF-8

Strict decoding, byte by byte. A fault names the bytes of the longest beginning of a character
that went wrong, so the first byte that rules the text out is the one after them, except for a
byte that can start no character, which is named itself.
-/

namespace JamCompiler.Text.Utf8

inductive Reason
  | startByte
  | continuation
  | truncated
  deriving DecidableEq

def Reason.text : Reason → String
  | .startByte => "invalid start byte"
  | .continuation => "invalid continuation byte"
  | .truncated => "unexpected end of data"

/-- The bytes from `start` up to, and not including, `stop` are at fault; `first` is the first of
them. -/
structure Fault where
  start : Nat
  stop : Nat
  first : UInt8
  reason : Reason
  deriving DecidableEq

def Fault.message (f : Fault) : String :=
  let which :=
    if f.stop = f.start + 1 then
      let digits := String.ofList (hex 2 f.first.toNat)
      s!"byte 0x{digits} in position {f.start}"
    else
      let last := f.stop - 1
      s!"bytes in position {f.start}-{last}"
  s!"'utf-8' codec can't decode {which}: {f.reason.text}"

/-- A character begun: how many bytes it still needs, the bounds of the next one, and the value
read so far. -/
structure Pending where
  start : Nat
  first : UInt8
  owed : Nat
  low : UInt8
  high : UInt8
  value : Nat

/-- What a byte that opens a longer character asks for. The bounds on the second byte keep out
overlong forms, surrogates and values beyond the last code point. -/
def opening (pos : Nat) (b : UInt8) : Option Pending :=
  if 0xc2 ≤ b && b ≤ 0xdf then some ⟨pos, b, 1, 0x80, 0xbf, b.toNat - 0xc0⟩
  else if b = 0xe0 then some ⟨pos, b, 2, 0xa0, 0xbf, 0⟩
  else if b = 0xed then some ⟨pos, b, 2, 0x80, 0x9f, 0xd⟩
  else if 0xe1 ≤ b && b ≤ 0xef then some ⟨pos, b, 2, 0x80, 0xbf, b.toNat - 0xe0⟩
  else if b = 0xf0 then some ⟨pos, b, 3, 0x90, 0xbf, 0⟩
  else if 0xf1 ≤ b && b ≤ 0xf3 then some ⟨pos, b, 3, 0x80, 0xbf, b.toNat - 0xf0⟩
  else if b = 0xf4 then some ⟨pos, b, 3, 0x80, 0x8f, 4⟩
  else none

/-- Decodes the bytes from position `pos` on, inside a character if one is pending. -/
def decodeFrom (pos : Nat) : Option Pending → List UInt8 → Except Fault (List Char)
  | none, [] => .ok []
  | some p, [] => .error ⟨p.start, pos, p.first, .truncated⟩
  | none, b :: rest =>
    if b < 0x80 then (Char.ofNat b.toNat :: ·) <$> decodeFrom (pos + 1) none rest
    else match opening pos b with
      | some p => decodeFrom (pos + 1) (some p) rest
      | none => .error ⟨pos, pos + 1, b, .startByte⟩
  | some p, b :: rest =>
    if p.low ≤ b && b ≤ p.high then
      let value := 64 * p.value + (b.toNat - 0x80)
      if p.owed ≤ 1 then (Char.ofNat value :: ·) <$> decodeFrom (pos + 1) none rest
      else
        decodeFrom (pos + 1)
          (some { p with owed := p.owed - 1, low := 0x80, high := 0xbf, value := value }) rest
    else .error ⟨p.start, pos, p.first, .continuation⟩

def decode (bytes : List UInt8) : Except Fault (List Char) := decodeFrom 0 none bytes

end JamCompiler.Text.Utf8

/-!
# Reading bytes as text

`Utf8.decode` reads a file's bytes as UTF-8 and refuses anything malformed. A refusal says which
bytes are at fault: a byte that starts no character, the part of a character before the first byte
that does not continue it, or a character cut short by the end of the input.
-/

namespace TapeMachine.Text.Utf8

/-- What is wrong with a malformed character. -/
inductive Reason where
  | invalidStart
  | invalidContinuation
  | unexpectedEnd
deriving DecidableEq, Repr

/-- The bytes from `start` on, `length` of them, that form no character. -/
structure Flaw where
  reason : Reason
  start : Nat
  length : Nat
  first : UInt8
deriving DecidableEq, Repr

/-- The bytes that may follow a leading byte directly: those that make the shortest form of a
character, no surrogate, and nothing beyond the last code point. -/
def secondRange (lead : UInt8) : UInt8 × UInt8 :=
  if lead = 0xE0 then (0xA0, 0xBF)
  else if lead = 0xED then (0x80, 0x9F)
  else if lead = 0xF0 then (0x90, 0xBF)
  else if lead = 0xF4 then (0x80, 0x8F)
  else (0x80, 0xBF)

/-- How many bytes follow a leading byte, or `none` if no character starts with it. -/
def trailing? (lead : UInt8) : Option Nat :=
  if lead < 0x80 then some 0
  else if lead < 0xC2 then none
  else if lead < 0xE0 then some 1
  else if lead < 0xF0 then some 2
  else if lead < 0xF5 then some 3
  else none

/-- The bits that a leading byte with `n` bytes after it contributes. -/
def leadBits (lead : UInt8) : Nat → Nat
  | 0 => lead.toNat
  | 1 => lead.toNat % 0x20
  | 2 => lead.toNat % 0x10
  | _ => lead.toNat % 0x08

/-- Reads `n` further bytes of a character whose value so far is `value`, of which the next lies
between `low` and `high` and the others are any continuation; `taken` counts the bytes read. Gives
the value, or the reason and the number of bytes that were well formed. -/
def continueWith (low high : UInt8) (value taken : Nat) :
    Nat → List UInt8 → Except (Reason × Nat) Nat
  | 0, _ => .ok value
  | _ + 1, [] => .error (.unexpectedEnd, taken)
  | n + 1, b :: bs =>
    if decide (low ≤ b) && decide (b ≤ high) then
      continueWith 0x80 0xBF (value * 0x40 + b.toNat % 0x40) (taken + 1) n bs
    else .error (.invalidContinuation, taken)

/-- Reads the bytes from `position` on; the first `skip` of them belong to a character already
read. -/
def decodeFrom (position : Nat) : Nat → List UInt8 → Except Flaw (List Char)
  | _, [] => .ok []
  | skip + 1, _ :: bs => decodeFrom (position + 1) skip bs
  | 0, b :: bs =>
    match trailing? b with
    | none => .error ⟨.invalidStart, position, 1, b⟩
    | some n =>
      let (low, high) := secondRange b
      match continueWith low high (leadBits b n) 1 n bs with
      | .error (reason, length) => .error ⟨reason, position, length, b⟩
      | .ok value => do
        let cs ← decodeFrom (position + 1) n bs
        return Char.ofNat value :: cs

/-- The text that the bytes spell. -/
def decode (bytes : List UInt8) : Except Flaw (List Char) := decodeFrom 0 0 bytes

/-- The wording of a reason. -/
def Reason.message : Reason → String
  | .invalidStart => "invalid start byte"
  | .invalidContinuation => "invalid continuation byte"
  | .unexpectedEnd => "unexpected end of data"

/-- A byte as two digits in base sixteen. -/
def hexByte (b : UInt8) : String :=
  String.ofList [Nat.digitChar (b.toNat / 16), Nat.digitChar (b.toNat % 16)]

/-- The wording of a refusal. -/
def Flaw.message (f : Flaw) : String :=
  let place :=
    if f.length = 1 then s!"byte 0x{hexByte f.first} in position {f.start}"
    else s!"bytes in position {f.start}-{f.start + f.length - 1}"
  "'utf-8' codec can't decode " ++ place ++ ": " ++ f.reason.message

end TapeMachine.Text.Utf8

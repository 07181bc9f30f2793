/-!
# Reading UTF-8

Bytes as characters, or the first place where they are not valid: which bytes
are at fault, and why. A fault covers the longest start of a character found
there.
-/

namespace Sigil.Text

/-- Why bytes are not valid. -/
inductive Utf8Problem where
  | startByte
  | continuationByte
  | truncated
deriving DecidableEq, Repr

/-- A fault in a sequence of bytes: `bytes` are those at fault, the first one at `offset`. -/
structure Utf8Error where
  problem : Utf8Problem
  offset : Nat
  bytes : List UInt8
deriving DecidableEq, Repr

/-- Two hexadecimal digits. -/
def hexByte (b : UInt8) : List Char :=
  [Nat.digitChar (b.toNat / 16), Nat.digitChar (b.toNat % 16)]

/-- The fault in words. -/
def Utf8Error.message (e : Utf8Error) : String :=
  let place :=
    match e.bytes with
    | [b] => s!"byte 0x{String.ofList (hexByte b)} in position {e.offset}"
    | bs => s!"bytes in position {e.offset}-{e.offset + bs.length - 1}"
  let reason := match e.problem with
    | .startByte => "invalid start byte"
    | .continuationByte => "invalid continuation byte"
    | .truncated => "unexpected end of data"
  s!"'utf-8' codec can't decode {place}: {reason}"

/-- What a first byte announces: the bits it contributes, how many bytes follow, and the range of
the byte after it. -/
def leadByte (b : UInt8) : Option (Nat × Nat × UInt8 × UInt8) :=
  if b < 0x80 then some (b.toNat, 0, 0x80, 0xBF)
  else if 0xC2 ≤ b ∧ b < 0xE0 then some (b.toNat - 0xC0, 1, 0x80, 0xBF)
  else if 0xE0 ≤ b ∧ b < 0xF0 then
    some (b.toNat - 0xE0, 2, if b = 0xE0 then 0xA0 else 0x80, if b = 0xED then 0x9F else 0xBF)
  else if 0xF0 ≤ b ∧ b < 0xF5 then
    some (b.toNat - 0xF0, 3, if b = 0xF0 then 0x90 else 0x80, if b = 0xF4 then 0x8F else 0xBF)
  else none

/-- Reads bytes as characters. `code` is what was read of a character begun with the bytes `read`,
of which `owed` are missing, the next one in a range. -/
def decodeUtf8From (offset : Nat) (read : List UInt8) (code owed : Nat) (lo hi : UInt8) :
    List UInt8 → Except Utf8Error (List Char)
  | [] => if owed = 0 then .ok [] else .error ⟨.truncated, offset, read⟩
  | b :: bs =>
    if owed = 0 then
      match leadByte b with
      | none => .error ⟨.startByte, offset, [b]⟩
      | some (code, 0, _, _) =>
        (decodeUtf8From (offset + 1) [] 0 0 0 0 bs).map (Char.ofNat code :: ·)
      | some (code, owed, lo, hi) => decodeUtf8From offset [b] code owed lo hi bs
    else if lo ≤ b ∧ b ≤ hi then
      let code := code * 64 + (b.toNat - 0x80)
      if owed = 1 then
        (decodeUtf8From (offset + read.length + 1) [] 0 0 0 0 bs).map (Char.ofNat code :: ·)
      else decodeUtf8From offset (read ++ [b]) code (owed - 1) 0x80 0xBF bs
    else .error ⟨.continuationByte, offset, read⟩

/-- Bytes as characters. -/
def decodeUtf8 (bytes : List UInt8) : Except Utf8Error (List Char) :=
  decodeUtf8From 0 [] 0 0 0 0 bytes

end Sigil.Text

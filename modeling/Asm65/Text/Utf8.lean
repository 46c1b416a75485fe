import Asm65.Text.Hex

/-!
# Reading UTF-8

A strict reader: overlong forms, surrogates and code points above `0x10FFFF` are refused.  A
refusal says which bytes are at fault: the lead byte together with the continuation bytes that
were still in order.
-/

namespace Asm65.Text.Utf8

/-- Why a byte sequence is not UTF-8. -/
inductive Reason
  | badStart
  | badContinuation
  | truncated
deriving DecidableEq, Repr

/-- The bytes at fault, from `start` on; the first of them is `lead`. -/
structure Refusal where
  reason : Reason
  lead : UInt8
  start : Nat
  count : Nat
deriving DecidableEq, Repr

/-- The wording of a reason. -/
def Reason.text : Reason → String
  | .badStart => "invalid start byte"
  | .badContinuation => "invalid continuation byte"
  | .truncated => "unexpected end of data"

/-- The wording of a refusal. -/
def Refusal.message (r : Refusal) : String :=
  let place :=
    if r.count == 1 then
      "byte 0x" ++ smallHex 2 r.lead.toNat ++ " in position " ++ toString r.start
    else
      "bytes in position " ++ toString r.start ++ "-" ++ toString (r.start + r.count - 1)
  "'utf-8' codec can't decode " ++ place ++ ": " ++ r.reason.text

/-- What a lead byte announces: its share of the code point, and for each continuation byte the
least and the greatest value it may have. -/
def announce (lead : UInt8) : Option (Nat × List (UInt8 × UInt8)) :=
  if lead < 0x80 then some (lead.toNat, [])
  else if lead < 0xC2 then none
  else if lead < 0xE0 then some (lead.toNat - 0xC0, [(0x80, 0xBF)])
  else if lead < 0xF0 then
    let low : UInt8 := if lead == 0xE0 then 0xA0 else 0x80
    let high : UInt8 := if lead == 0xED then 0x9F else 0xBF
    some (lead.toNat - 0xE0, [(low, high), (0x80, 0xBF)])
  else if lead < 0xF5 then
    let low : UInt8 := if lead == 0xF0 then 0x90 else 0x80
    let high : UInt8 := if lead == 0xF4 then 0x8F else 0xBF
    some (lead.toNat - 0xF0, [(low, high), (0x80, 0xBF), (0x80, 0xBF)])
  else none

/-- Where the reader stands inside a character. -/
structure Pending where
  lead : UInt8
  start : Nat
  count : Nat
  value : Nat
  owed : List (UInt8 × UInt8)
deriving Repr

/-- The refusal of a character that was begun and cannot go on. -/
def Pending.refusal (p : Pending) (reason : Reason) : Refusal :=
  ⟨reason, p.lead, p.start, p.count⟩

/-- Reads the bytes from `position` on, with the characters read so far, newest first. -/
def decodeFrom (position : Nat) (read : List Char) :
    Option Pending → List UInt8 → Except Refusal (List Char)
  | none, [] => .ok read.reverse
  | some p, [] => .error (p.refusal .truncated)
  | none, b :: rest =>
      match announce b with
      | none => .error ⟨.badStart, b, position, 1⟩
      | some (value, []) => decodeFrom (position + 1) (Char.ofNat value :: read) none rest
      | some (value, owed) =>
          decodeFrom (position + 1) read (some ⟨b, position, 1, value, owed⟩) rest
  | some p, b :: rest =>
      match p.owed with
      | [] => .error (p.refusal .badContinuation)
      | (low, high) :: owed =>
          if low ≤ b && b ≤ high then
            let value := p.value * 0x40 + (b.toNat - 0x80)
            match owed with
            | [] => decodeFrom (position + 1) (Char.ofNat value :: read) none rest
            | _ :: _ =>
                decodeFrom (position + 1) read
                  (some ⟨p.lead, p.start, p.count + 1, value, owed⟩) rest
          else .error (p.refusal .badContinuation)

/-- The text of a UTF-8 byte sequence. -/
def decode (bytes : List UInt8) : Except Refusal (List Char) :=
  decodeFrom 0 [] none bytes

end Asm65.Text.Utf8

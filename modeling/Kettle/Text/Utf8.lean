/-
Reading UTF-8, and what cannot be written in it. Decoding stops at the first bytes that are no encoded
rune and says where they are and what is wrong with them; the bytes it names are the longest start of an
encoded rune found there. Every rune but a surrogate can be encoded.
-/
import Kettle.Text.Rune

namespace Kettle.Utf8

/-- What is wrong with a byte sequence. -/
inductive Reason where
  | invalidStart
  | invalidContinuation
  | unexpectedEnd
  deriving DecidableEq, Repr

/-- Bytes that are no encoded rune: the first of them, its position, how many they are, and why. -/
structure Fault where
  first : UInt8
  position : Nat
  length : Nat
  reason : Reason
  deriving DecidableEq, Repr

namespace Reason

/-- The wording of a reason. -/
def message : Reason → Text
  | invalidStart => "invalid start byte"
  | invalidContinuation => "invalid continuation byte"
  | unexpectedEnd => "unexpected end of data"

end Reason

/-- The wording of a decoding fault. -/
def Fault.message (f : Fault) : Text :=
  let what : Text :=
    if f.length ≤ 1 then
      "byte 0x" ++ Text.ofHex 2 f.first.toNat ++ " in position " ++ Text.ofNat f.position
    else "bytes in position " ++ Text.ofNat f.position ++ "-" ++ Text.ofNat (f.position + f.length - 1)
  "'utf-8' codec can't decode " ++ what ++ ": " ++ f.reason.message

/-- How many bytes follow a lead byte, the range of the first of them, and the lead's own bits. -/
def lead? (b : UInt8) : Option (Nat × Nat × Nat × Nat) :=
  let n := b.toNat
  if 0xC2 ≤ n && n ≤ 0xDF then some (1, 0x80, 0xBF, n % 0x20)
  else if n = 0xE0 then some (2, 0xA0, 0xBF, 0)
  else if n = 0xED then some (2, 0x80, 0x9F, 0xD)
  else if 0xE1 ≤ n && n ≤ 0xEF then some (2, 0x80, 0xBF, n % 0x10)
  else if n = 0xF0 then some (3, 0x90, 0xBF, 0)
  else if n = 0xF4 then some (3, 0x80, 0x8F, 4)
  else if 0xF1 ≤ n && n ≤ 0xF3 then some (3, 0x80, 0xBF, n % 8)
  else none

/-- Reads `count` continuation bytes, the first between `low` and `high`, after a start of `length`
bytes with value `value`. -/
def continuation (value length : Nat) : (count low high : Nat) → List UInt8 →
    Except (Nat × Reason) (Nat × List UInt8)
  | 0, _, _, rest => .ok (value, rest)
  | _ + 1, _, _, [] => .error (length, .unexpectedEnd)
  | count + 1, low, high, b :: rest =>
    if low ≤ b.toNat && b.toNat ≤ high then
      continuation (value * 0x40 + b.toNat % 0x40) (length + 1) count 0x80 0xBF rest
    else .error (length, .invalidContinuation)

theorem continuation_rest_length {value length count low high : Nat} {bytes rest : List UInt8} {v : Nat}
    (h : continuation value length count low high bytes = .ok (v, rest)) :
    rest.length ≤ bytes.length := by
  induction count generalizing value length low high bytes with
  | zero => simp only [continuation, Except.ok.injEq, Prod.mk.injEq] at h; simp [h.2]
  | succ count ih =>
    cases bytes with
    | nil => simp [continuation] at h
    | cons b bytes =>
      rw [continuation] at h
      split at h
      · exact Nat.le_trans (ih h) (by simp)
      · simp at h

/-- The runes of a byte sequence that starts at `position` of its file. -/
def decodeFrom (position : Nat) : List UInt8 → Except Fault Text
  | [] => .ok []
  | b :: rest =>
    if b.toNat < 0x80 then return Rune.ofNat b.toNat :: (← decodeFrom (position + 1) rest)
    else match lead? b with
      | none => .error ⟨b, position, 1, .invalidStart⟩
      | some (count, low, high, bits) =>
        match h : continuation bits 1 count low high rest with
        | .error (length, reason) => .error ⟨b, position, length, reason⟩
        | .ok (code, rest') => do
          have := continuation_rest_length h
          return Rune.ofNat code :: (← decodeFrom (position + 1 + count) rest')
termination_by bytes => bytes.length

/-- The runes of a byte sequence. -/
def decode (bytes : List UInt8) : Except Fault Text := decodeFrom 0 bytes

/-- Why a text cannot be encoded, if it cannot: the first surrogates in it. -/
def refusal? (t : Text) : Option Text :=
  match t.dropWhile fun r => !r.isSurrogate with
  | [] => none
  | r :: rest =>
    let position := (t.takeWhile fun r => !r.isSurrogate).length
    let more := (rest.takeWhile Rune.isSurrogate).length
    let what : Text :=
      if more = 0 then "character '\\u" ++ Text.ofHex 4 r.val ++ "' in position " ++ Text.ofNat position
      else "characters in position " ++ Text.ofNat position ++ "-" ++ Text.ofNat (position + more)
    some ("'utf-8' codec can't encode " ++ what ++ ": surrogates not allowed")

end Kettle.Utf8

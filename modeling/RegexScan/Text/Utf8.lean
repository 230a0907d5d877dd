/-!
# Decoding UTF-8 from the front

Only the shortest encodings of scalar values are characters: no surrogates, and nothing above
U+10FFFF.
-/

namespace RegexScan.Text.Utf8

/-- What stands at the front of some bytes. -/
inductive Front where
  | char (c : Char) (rest : List UInt8)
  /-- More bytes are needed to tell. -/
  | incomplete
  | malformed
deriving DecidableEq

/-- The range of a byte that continues a character. -/
def continuation : UInt8 × UInt8 := (0x80, 0xBF)

/-- What a byte that begins a longer character says: its part of the code point and the ranges of
the bytes behind it. -/
def leading (b : UInt8) : Option (Nat × List (UInt8 × UInt8)) :=
  let bits := b.toNat
  if 0xC2 ≤ b ∧ b ≤ 0xDF then some (bits - 0xC0, [continuation])
  else if b = 0xE0 then some (bits - 0xE0, [(0xA0, 0xBF), continuation])
  else if b = 0xED then some (bits - 0xE0, [(0x80, 0x9F), continuation])
  else if 0xE1 ≤ b ∧ b ≤ 0xEF then some (bits - 0xE0, [continuation, continuation])
  else if b = 0xF0 then some (bits - 0xF0, [(0x90, 0xBF), continuation, continuation])
  else if 0xF1 ≤ b ∧ b ≤ 0xF3 then
    some (bits - 0xF0, [continuation, continuation, continuation])
  else if b = 0xF4 then some (bits - 0xF0, [(0x80, 0x8F), continuation, continuation])
  else none

/-- Complete a code point by bytes in the given ranges. -/
def follow (code : Nat) : List (UInt8 × UInt8) → List UInt8 → Front
  | [], rest => .char (Char.ofNat code) rest
  | _ :: _, [] => .incomplete
  | (lo, hi) :: ranges, b :: rest =>
    if lo ≤ b ∧ b ≤ hi then follow (64 * code + b.toNat % 64) ranges rest else .malformed

/-- The front of some bytes.  A byte that begins no character is malformed only in front of another
byte: by itself it is still incomplete. -/
def front : List UInt8 → Front
  | [] => .incomplete
  | b :: rest =>
    if b < 0x80 then .char (Char.ofNat b.toNat) rest
    else match leading b with
      | some (code, ranges) => follow code ranges rest
      | none => if rest.isEmpty then .incomplete else .malformed

/-- Completing a code point adds no bytes. -/
theorem length_follow {code : Nat} {ranges : List (UInt8 × UInt8)} {bytes rest : List UInt8}
    {c : Char} (h : follow code ranges bytes = .char c rest) : rest.length ≤ bytes.length := by
  induction ranges generalizing code bytes with
  | nil =>
    cases h
    exact Nat.le_refl _
  | cons range ranges ih =>
    cases bytes with
    | nil => cases h
    | cons b bytes =>
      simp only [follow] at h
      split at h
      · exact Nat.le_succ_of_le (ih h)
      · cases h

/-- A character takes at least one byte. -/
theorem length_front {bytes rest : List UInt8} {c : Char} (h : front bytes = .char c rest) :
    rest.length < bytes.length := by
  cases bytes with
  | nil => cases h
  | cons b bytes =>
    simp only [front] at h
    split at h
    · cases h
      exact Nat.lt_succ_self _
    · split at h
      · exact Nat.lt_succ_of_le (length_follow h)
      · split at h
        · cases h
        · cases h

/-- The characters decoded from some bytes, the bytes that are left, and whether those are
malformed. -/
structure Decoded where
  chars : List Char
  rest : List UInt8
  malformed : Bool
deriving DecidableEq

/-- Decode as far as possible; `acc` holds the characters before, newest first. -/
def decodeAfter (acc : List Char) (bytes : List UInt8) : Decoded :=
  match _h : front bytes with
  | .char c rest => decodeAfter (c :: acc) rest
  | .incomplete => ⟨acc.reverse, bytes, false⟩
  | .malformed => ⟨acc.reverse, bytes, true⟩
termination_by bytes.length
decreasing_by exact length_front _h

/-- Decode some bytes as far as possible. -/
def decode (bytes : List UInt8) : Decoded := decodeAfter [] bytes

end RegexScan.Text.Utf8

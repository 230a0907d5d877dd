import Mathlib.Data.List.Basic
import RegexScan.Text.Utf8

/-!
# Decoding from the front

Decoding takes one character after the other from the front, until what is left is incomplete or
malformed.  Once the front of some bytes is a character, or malformed, more bytes behind it do not
change that.  And the front of an encoded character is the character.
-/

namespace RegexScan.Text.Utf8

/-- Behind a leading byte the bytes that follow decide. -/
theorem front_eq_follow {b : UInt8} {code : Nat} {ranges : List (UInt8 × UInt8)} (hb : ¬b < 0x80)
    (h : leading b = some (code, ranges)) (rest : List UInt8) :
    front (b :: rest) = follow code ranges rest := by
  rw [front, if_neg hb, h]

/-! ## One character after the other -/

/-- Induction along the characters that are decoded. -/
@[elab_as_elim]
theorem front_induction {motive : List UInt8 → Prop}
    (char : ∀ bytes c rest, front bytes = .char c rest → motive rest → motive bytes)
    (incomplete : ∀ bytes, front bytes = .incomplete → motive bytes)
    (malformed : ∀ bytes, front bytes = .malformed → motive bytes) (bytes : List UInt8) :
    motive bytes := by
  induction hn : bytes.length using Nat.strongRecOn generalizing bytes with
  | ind n ih =>
    cases hfront : front bytes with
    | char c rest => exact char bytes c rest hfront (ih _ (hn ▸ length_front hfront) rest rfl)
    | incomplete => exact incomplete bytes hfront
    | malformed => exact malformed bytes hfront

/-- One turn of decoding. -/
theorem decodeAfter_eq (acc : List Char) (bytes : List UInt8) :
    decodeAfter acc bytes =
      match front bytes with
      | .char c rest => decodeAfter (c :: acc) rest
      | .incomplete => ⟨acc.reverse, bytes, false⟩
      | .malformed => ⟨acc.reverse, bytes, true⟩ := by
  rw [decodeAfter]
  split <;> next h => rw [h]

/-- The characters before some bytes come before those of the bytes. -/
theorem decodeAfter_eq_append (acc : List Char) (bytes : List UInt8) :
    decodeAfter acc bytes =
      ⟨acc.reverse ++ (decode bytes).chars, (decode bytes).rest, (decode bytes).malformed⟩ := by
  induction bytes using front_induction generalizing acc with
  | char bytes c rest h ih =>
    have hdecode : decode bytes = decodeAfter [c] rest := by rw [decode, decodeAfter_eq, h]
    rw [hdecode, ih [c], decodeAfter_eq, h]
    dsimp only
    rw [ih (c :: acc), List.reverse_cons, List.append_assoc]
    rfl
  | incomplete bytes h => rw [decode, decodeAfter_eq, decodeAfter_eq, h, List.reverse_nil,
      List.append_nil]
  | malformed bytes h => rw [decode, decodeAfter_eq, decodeAfter_eq, h, List.reverse_nil,
      List.append_nil]

section

variable {bytes rest : List UInt8} {c : Char}

/-- A character in front is decoded first. -/
theorem decode_of_char (h : front bytes = .char c rest) :
    decode bytes = ⟨c :: (decode rest).chars, (decode rest).rest, (decode rest).malformed⟩ := by
  rw [decode, decodeAfter_eq, h]
  exact decodeAfter_eq_append [c] rest

theorem decode_of_incomplete (h : front bytes = .incomplete) :
    decode bytes = ⟨[], bytes, false⟩ := by
  rw [decode, decodeAfter_eq, h]
  rfl

theorem decode_of_malformed (h : front bytes = .malformed) : decode bytes = ⟨[], bytes, true⟩ := by
  rw [decode, decodeAfter_eq, h]
  rfl

end

/-! ## More bytes behind -/

/-- The same front of more bytes. -/
def Front.append (front : Front) (more : List UInt8) : Front :=
  match front with
  | .char c rest => .char c (rest ++ more)
  | .incomplete => .incomplete
  | .malformed => .malformed

/-- More bytes do not change what was decided without them. -/
theorem follow_append {code : Nat} {ranges : List (UInt8 × UInt8)} {bytes : List UInt8}
    (h : follow code ranges bytes ≠ .incomplete) (more : List UInt8) :
    follow code ranges (bytes ++ more) = (follow code ranges bytes).append more := by
  induction ranges generalizing code bytes with
  | nil => rfl
  | cons range ranges ih =>
    cases bytes with
    | nil => exact absurd rfl h
    | cons b bytes =>
      rw [List.cons_append, follow, follow]
      rw [follow] at h
      by_cases hb : range.1 ≤ b ∧ b ≤ range.2
      · rw [if_pos hb] at h ⊢
        rw [if_pos hb]
        exact ih h
      · rw [if_neg hb, if_neg hb]
        rfl

/-- More bytes do not change a front that was not incomplete. -/
theorem front_append {bytes : List UInt8} (h : front bytes ≠ .incomplete) (more : List UInt8) :
    front (bytes ++ more) = (front bytes).append more := by
  cases bytes with
  | nil => exact absurd rfl h
  | cons b bytes =>
    rw [List.cons_append]
    by_cases hb : b < 0x80
    · rw [front, front, if_pos hb, if_pos hb]
      rfl
    · cases hleading : leading b with
      | some lead =>
        rw [front_eq_follow hb hleading] at h
        rw [front_eq_follow hb hleading, front_eq_follow hb hleading]
        exact follow_append h more
      | none =>
        -- the byte begins no character, which counts only in front of another one
        cases bytes with
        | nil => exact absurd (by rw [front, if_neg hb, hleading]; rfl) h
        | cons b' bytes =>
          rw [front, front, if_neg hb, if_neg hb, hleading]
          rfl

/-! ## Encoded characters -/

section

variable {code k j v : Nat} (ranges : List (UInt8 × UInt8)) (rest : List UInt8)

theorem follow_cons {lo hi : UInt8} (hj : j < 64) (hlo : lo.toNat ≤ j + 128)
    (hhi : j + 128 ≤ hi.toNat) :
    follow code ((lo, hi) :: ranges) (UInt8.ofNat (j + 128) :: rest) =
      follow (64 * code + j) ranges rest := by
  have hb : (UInt8.ofNat (j + 128)).toNat = j + 128 :=
    UInt8.toNat_ofNat_of_lt' (Nat.lt_of_lt_of_le (Nat.add_lt_add_right hj 128) (by decide))
  rw [follow, if_pos, hb, show (j + 128) % 64 = j by omega]
  rw [UInt8.le_iff_toNat_le, UInt8.le_iff_toNat_le, hb]
  exact ⟨hlo, hhi⟩

/-- A continuation byte adds its six bits. -/
theorem follow_continuation (hj : j < 64) :
    follow code (continuation :: ranges) (UInt8.ofNat (j + 128) :: rest) =
      follow (64 * code + j) ranges rest :=
  follow_cons ranges rest hj (Nat.le_add_left ..) (Nat.le_of_lt_succ (Nat.add_lt_add_right hj 128))

/-- The range of a second byte by what the first one says.  Behind a zero it is at least `least`, so
that nothing is encoded in more bytes than it needs, and behind `top` it is at most `greatest`. -/
def secondRange (least : UInt8) (top : Nat) (greatest : UInt8) (k : Nat) : UInt8 × UInt8 :=
  if k = 0 then (least, 0xBF) else if k = top then (0x80, greatest) else continuation

/-- A second byte within its bounds adds its six bits. -/
theorem follow_secondRange {least greatest : UInt8} {top : Nat} (hj : j < 64)
    (hleast : k = 0 → least.toNat ≤ j + 128) (hgreatest : k = top → j + 128 ≤ greatest.toNat) :
    follow code (secondRange least top greatest k :: ranges) (UInt8.ofNat (j + 128) :: rest) =
      follow (64 * code + j) ranges rest := by
  have hge : 128 ≤ j + 128 := Nat.le_add_left ..
  have hle : j + 128 ≤ 191 := Nat.le_of_lt_succ (Nat.add_lt_add_right hj 128)
  rw [secondRange]
  split
  · next hk => exact follow_cons ranges rest hj (hleast hk) hle
  · split
    · next hk => exact follow_cons ranges rest hj hge (hgreatest hk)
    · exact follow_continuation ranges rest hj

theorem leading_two : ∀ k < 30, ¬UInt8.ofNat (k + 2 + 192) < 0x80 ∧
    leading (UInt8.ofNat (k + 2 + 192)) = some (k + 2, [continuation]) := by
  decide

theorem leading_three : ∀ k < 16, ¬UInt8.ofNat (k + 224) < 0x80 ∧
    leading (UInt8.ofNat (k + 224)) = some (k, [secondRange 0xA0 13 0x9F k, continuation]) := by
  decide

theorem leading_four : ∀ k < 5, ¬UInt8.ofNat (k + 240) < 0x80 ∧
    leading (UInt8.ofNat (k + 240)) =
      some (k, [secondRange 0x90 4 0x8F k, continuation, continuation]) := by
  decide

/-- The encoding of one byte is decoded. -/
theorem front_one (h : v ≤ 127) : front (UInt8.ofNat v :: rest) = .char (Char.ofNat v) rest := by
  have hb : (UInt8.ofNat v).toNat = v :=
    UInt8.toNat_ofNat_of_lt' (Nat.lt_of_le_of_lt h (by decide))
  rw [front, if_pos, hb]
  rw [UInt8.lt_iff_toNat_lt, hb]
  exact Nat.lt_succ_of_le h

theorem front_two (h : 127 < v) (h' : v ≤ 2047) :
    front (UInt8.ofNat (v / 64 % 32 + 192) :: UInt8.ofNat (v % 64 + 128) :: rest) =
      .char (Char.ofNat v) rest := by
  obtain ⟨k, hk⟩ : ∃ k, v / 64 % 32 = k + 2 := ⟨v / 64 % 32 - 2, by omega⟩
  obtain ⟨hb, hleading⟩ := leading_two k (by omega)
  rw [hk, front_eq_follow hb hleading, follow_continuation _ _ (by omega), follow,
    show 64 * (k + 2) + v % 64 = v by omega]

/-- No character is a surrogate. -/
theorem front_three (h : 2047 < v) (h' : v ≤ 65535) (hchar : v < 0xD800 ∨ 0xDFFF < v) :
    front (UInt8.ofNat (v / 4096 % 16 + 224) :: UInt8.ofNat (v / 64 % 64 + 128) ::
      UInt8.ofNat (v % 64 + 128) :: rest) = .char (Char.ofNat v) rest := by
  obtain ⟨hb, hleading⟩ := leading_three (v / 4096 % 16) (by omega)
  have hleast : v / 4096 % 16 = 0 → 160 ≤ v / 64 % 64 + 128 := by omega
  have hgreatest : v / 4096 % 16 = 13 → v / 64 % 64 + 128 ≤ 159 := by omega
  rw [front_eq_follow hb hleading, follow_secondRange _ _ (by omega) hleast hgreatest,
    follow_continuation _ _ (by omega), follow,
    show 64 * (64 * (v / 4096 % 16) + v / 64 % 64) + v % 64 = v by omega]

/-- The encoding of four bytes is decoded. -/
theorem front_four (h : 65535 < v) (h' : v < 0x110000) :
    front (UInt8.ofNat (v / 262144 % 8 + 240) :: UInt8.ofNat (v / 4096 % 64 + 128) ::
      UInt8.ofNat (v / 64 % 64 + 128) :: UInt8.ofNat (v % 64 + 128) :: rest) =
      .char (Char.ofNat v) rest := by
  obtain ⟨hb, hleading⟩ := leading_four (v / 262144 % 8) (by omega)
  have hleast : v / 262144 % 8 = 0 → 144 ≤ v / 4096 % 64 + 128 := by omega
  have hgreatest : v / 262144 % 8 = 4 → v / 4096 % 64 + 128 ≤ 143 := by omega
  rw [front_eq_follow hb hleading, follow_secondRange _ _ (by omega) hleast hgreatest,
    follow_continuation _ _ (by omega), follow_continuation _ _ (by omega), follow,
    show 64 * (64 * (64 * (v / 262144 % 8) + v / 4096 % 64) + v / 64 % 64) + v % 64 = v by omega]

end

/-- Decoding undoes encoding, whatever comes behind. -/
theorem front_utf8EncodeChar (c : Char) (rest : List UInt8) :
    front (String.utf8EncodeChar c ++ rest) = .char c rest := by
  have hc : c.val.toNat < 0xD800 ∨ 0xDFFF < c.val.toNat ∧ c.val.toNat < 0x110000 := c.valid
  have hofNat : Char.ofNat c.val.toNat = c := Char.ofNat_toNat c
  rw [String.utf8EncodeChar]
  generalize c.val.toNat = v at *
  subst hofNat
  split
  · next h => exact front_one rest h
  split
  · next h h' => exact front_two rest (Nat.lt_of_not_le h) h'
  split
  · next h h' => exact front_three rest (Nat.lt_of_not_le h) h' (hc.imp_right And.left)
  · next h => exact front_four rest (Nat.lt_of_not_le h) (by omega)

end RegexScan.Text.Utf8

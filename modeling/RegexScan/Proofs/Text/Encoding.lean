import RegexScan.Proofs.Text.Utf8

/-!
# Only encodings are decoded

What is decoded from the front of some bytes is the character whose encoding stands there, so no
number is read from more bytes than it needs, and no surrogate and nothing too large is read at all.
Bytes that are still incomplete are a part of the encoding of some character, or a single byte.
-/

namespace RegexScan.Text.Utf8

/-! ## From bytes to numbers -/

section

variable {code : Nat} {ranges : List (UInt8 × UInt8)} {bytes rest : List UInt8} {b : UInt8}
  {c : Char}

theorem eq_ofNat_of_toNat {v : Nat} (h : b.toNat = v) : b = UInt8.ofNat v := by
  rw [← h, UInt8.ofNat_toNat]

/-- The next byte of a character that is decoded, without its mark. -/
theorem exists_of_follow {lo hi : UInt8} (hlo : 128 ≤ lo.toNat) (hhi : hi.toNat ≤ 191)
    (h : follow code ((lo, hi) :: ranges) bytes = .char c rest) :
    ∃ j tail, bytes = UInt8.ofNat (j + 128) :: tail ∧ j < 64 ∧ lo.toNat ≤ j + 128 ∧
      j + 128 ≤ hi.toNat ∧ follow (64 * code + j) ranges tail = .char c rest := by
  cases bytes with
  | nil => cases h
  | cons b tail =>
    rw [follow] at h
    split at h
    · next hb =>
      rw [UInt8.le_iff_toNat_le, UInt8.le_iff_toNat_le] at hb
      have hj : b.toNat % 64 + 128 = b.toNat := by omega
      exact ⟨b.toNat % 64, tail, by rw [hj, UInt8.ofNat_toNat], by omega, by omega, by omega, h⟩
    · cases h

/-- A continuation byte carries six bits. -/
theorem exists_of_follow_continuation
    (h : follow code (continuation :: ranges) bytes = .char c rest) :
    ∃ j tail, bytes = UInt8.ofNat (j + 128) :: tail ∧ j < 64 ∧
      follow (64 * code + j) ranges tail = .char c rest := by
  obtain ⟨j, tail, hbytes, hj, -, -, hrest⟩ := exists_of_follow (by decide) (by decide) h
  exact ⟨j, tail, hbytes, hj, hrest⟩

/-- A second byte carries six bits, within the bounds that its leading byte sets. -/
theorem exists_of_follow_secondRange {least greatest : UInt8} {top k : Nat}
    (hleast : 128 ≤ least.toNat) (hgreatest : greatest.toNat ≤ 191)
    (h : follow code (secondRange least top greatest k :: ranges) bytes = .char c rest) :
    ∃ j tail, bytes = UInt8.ofNat (j + 128) :: tail ∧ j < 64 ∧
      (k = 0 → least.toNat ≤ j + 128) ∧ (k ≠ 0 → k = top → j + 128 ≤ greatest.toNat) ∧
      follow (64 * code + j) ranges tail = .char c rest := by
  rw [secondRange] at h
  split at h
  · next hk =>
    obtain ⟨j, tail, hbytes, hj, hlo, -, hrest⟩ := exists_of_follow hleast (by decide) h
    exact ⟨j, tail, hbytes, hj, fun _ ↦ hlo, fun hne ↦ absurd hk hne, hrest⟩
  · next hk =>
    split at h
    · obtain ⟨j, tail, hbytes, hj, -, hhi, hrest⟩ := exists_of_follow (by decide) hgreatest h
      exact ⟨j, tail, hbytes, hj, fun hzero ↦ absurd hzero hk, fun _ _ ↦ hhi, hrest⟩
    · next htop =>
      obtain ⟨j, tail, hbytes, hj, hrest⟩ := exists_of_follow_continuation h
      exact ⟨j, tail, hbytes, hj, fun hzero ↦ absurd hzero hk, fun _ heq ↦ absurd heq htop, hrest⟩

theorem leading_eq_none :
    ∀ v < 256, v < 194 ∨ 244 < v → leading (UInt8.ofNat v) = none := by
  decide +kernel

/-- A byte that begins a longer character begins one of two, three or four bytes. -/
theorem leading_cases (b : UInt8) :
    leading b = none ∨ (∃ k < 30, b = UInt8.ofNat (k + 2 + 192)) ∨
      (∃ k < 16, b = UInt8.ofNat (k + 224)) ∨ ∃ k < 5, b = UInt8.ofNat (k + 240) := by
  have hlt := b.toNat_lt
  by_cases hnone : b.toNat < 194 ∨ 244 < b.toNat
  · left
    exact (congrArg leading (eq_ofNat_of_toNat rfl)).trans (leading_eq_none b.toNat hlt hnone)
  · right
    by_cases htwo : b.toNat < 224
    · exact .inl ⟨b.toNat - 194, by omega, eq_ofNat_of_toNat (by omega)⟩
    · by_cases hthree : b.toNat < 240
      · exact .inr (.inl ⟨b.toNat - 224, by omega, eq_ofNat_of_toNat (by omega)⟩)
      · exact .inr (.inr ⟨b.toNat - 240, by omega, eq_ofNat_of_toNat (by omega)⟩)

end

/-! ## From numbers back to bytes -/

section

variable {v : Nat} {bytes rest : List UInt8} {c : Char}

/-- A number that is no surrogate and not too large is a character. -/
theorem toNat_ofNat_of_lt (h : v < 0xD800 ∨ 0xDFFF < v ∧ v < 0x110000) :
    (Char.ofNat v).val.toNat = v := by
  have hvalid : v.isValidChar := h
  rw [Char.ofNat, dif_pos hvalid]
  rfl

/-- Decoding two bytes inverts the encoding. -/
theorem eq_encode_of_follow_two {k : Nat} (hk : k < 30)
    (h : follow (k + 2) [continuation] bytes = .char c rest) :
    UInt8.ofNat (k + 2 + 192) :: bytes = String.utf8EncodeChar c ++ rest := by
  obtain ⟨j, tail, rfl, hj, h⟩ := exists_of_follow_continuation h
  rw [follow] at h
  cases h
  have hv : (Char.ofNat (64 * (k + 2) + j)).val.toNat = 64 * (k + 2) + j :=
    toNat_ofNat_of_lt (by omega)
  rw [String.utf8EncodeChar, hv, if_neg (by omega), if_pos (by omega),
    show (64 * (k + 2) + j) / 64 % 32 = k + 2 by omega,
    show (64 * (k + 2) + j) % 64 = j by omega]
  rfl

theorem eq_encode_of_follow_three {k : Nat} (hk : k < 16)
    (h : follow k [secondRange 0xA0 13 0x9F k, continuation] bytes = .char c rest) :
    UInt8.ofNat (k + 224) :: bytes = String.utf8EncodeChar c ++ rest := by
  obtain ⟨i, tail, rfl, hi, hleast, hgreatest, h⟩ :=
    exists_of_follow_secondRange (by decide) (by decide) h
  obtain ⟨j, tail, rfl, hj, h⟩ := exists_of_follow_continuation h
  rw [follow] at h
  cases h
  change k = 0 → 160 ≤ i + 128 at hleast
  change k ≠ 0 → k = 13 → i + 128 ≤ 159 at hgreatest
  have hv : (Char.ofNat (64 * (64 * k + i) + j)).val.toNat = 64 * (64 * k + i) + j :=
    toNat_ofNat_of_lt (by omega)
  rw [String.utf8EncodeChar, hv, if_neg (by omega), if_neg (by omega), if_pos (by omega),
    show (64 * (64 * k + i) + j) / 4096 % 16 = k by omega,
    show (64 * (64 * k + i) + j) / 64 % 64 = i by omega,
    show (64 * (64 * k + i) + j) % 64 = j by omega]
  rfl

theorem eq_encode_of_follow_four {k : Nat} (hk : k < 5)
    (h : follow k [secondRange 0x90 4 0x8F k, continuation, continuation] bytes = .char c rest) :
    UInt8.ofNat (k + 240) :: bytes = String.utf8EncodeChar c ++ rest := by
  obtain ⟨i, tail, rfl, hi, hleast, hgreatest, h⟩ :=
    exists_of_follow_secondRange (by decide) (by decide) h
  obtain ⟨j, tail, rfl, hj, h⟩ := exists_of_follow_continuation h
  obtain ⟨l, tail, rfl, hl, h⟩ := exists_of_follow_continuation h
  rw [follow] at h
  cases h
  change k = 0 → 144 ≤ i + 128 at hleast
  change k ≠ 0 → k = 4 → i + 128 ≤ 143 at hgreatest
  have hv : (Char.ofNat (64 * (64 * (64 * k + i) + j) + l)).val.toNat =
      64 * (64 * (64 * k + i) + j) + l := toNat_ofNat_of_lt (by omega)
  rw [String.utf8EncodeChar, hv, if_neg (by omega), if_neg (by omega), if_neg (by omega),
    show (64 * (64 * (64 * k + i) + j) + l) / 262144 % 8 = k by omega,
    show (64 * (64 * (64 * k + i) + j) + l) / 4096 % 64 = i by omega,
    show (64 * (64 * (64 * k + i) + j) + l) / 64 % 64 = j by omega,
    show (64 * (64 * (64 * k + i) + j) + l) % 64 = l by omega]
  rfl

/-- What decodes to a character is its encoding. -/
theorem eq_encode_of_front (h : front bytes = .char c rest) :
    bytes = String.utf8EncodeChar c ++ rest := by
  cases bytes with
  | nil => cases h
  | cons b bytes =>
    by_cases hb : b < 0x80
    · rw [front, if_pos hb] at h
      cases h
      have hlt : b.toNat < 128 := UInt8.lt_iff_toNat_lt.mp hb
      rw [String.utf8EncodeChar, toNat_ofNat_of_lt (by omega), if_pos (by omega),
        UInt8.ofNat_toNat]
      rfl
    · rcases leading_cases b with hnone | ⟨k, hk, rfl⟩ | ⟨k, hk, rfl⟩ | ⟨k, hk, rfl⟩
      · rw [front, if_neg hb, hnone] at h
        dsimp only at h
        split at h <;> cases h
      · rw [front_eq_follow hb (leading_two k hk).2] at h
        exact eq_encode_of_follow_two hk h
      · rw [front_eq_follow hb (leading_three k hk).2] at h
        exact eq_encode_of_follow_three hk h
      · rw [front_eq_follow hb (leading_four k hk).2] at h
        exact eq_encode_of_follow_four hk h

/-- The front is a character just when the encoding of that character stands there. -/
theorem front_eq_char_iff :
    front bytes = .char c rest ↔ bytes = String.utf8EncodeChar c ++ rest := by
  constructor
  · exact eq_encode_of_front
  · rintro rfl
    exact front_utf8EncodeChar c rest

end

/-! ## Bytes that may still become a character -/

section

variable {code : Nat} {ranges : List (UInt8 × UInt8)} {bytes : List UInt8}

/-- The least bytes of the ranges decode to some character. -/
theorem exists_follow_map_fst (code : Nat) (h : ∀ r ∈ ranges, r.1 ≤ r.2) :
    ∃ c, follow code ranges (ranges.map Prod.fst) = .char c [] := by
  induction ranges generalizing code with
  | nil => exact ⟨_, rfl⟩
  | cons r ranges ih =>
    have hr : r.1 ≤ r.1 ∧ r.1 ≤ r.2 := ⟨UInt8.le_refl _, h r List.mem_cons_self⟩
    rw [List.map_cons, follow, if_pos hr]
    exact ih _ fun r hr ↦ h r (.tail _ hr)

/-- The least bytes that may follow complete a character. -/
theorem exists_completion (hranges : ∀ r ∈ ranges, r.1 ≤ r.2)
    (h : follow code ranges bytes = .incomplete) :
    ∃ more c, follow code ranges (bytes ++ more) = .char c [] := by
  induction ranges generalizing code bytes with
  | nil => cases h
  | cons r ranges ih =>
    cases bytes with
    | nil => exact ⟨_, exists_follow_map_fst code hranges⟩
    | cons b bytes =>
      rw [follow] at h
      split at h
      · next hb =>
        obtain ⟨more, c, hmore⟩ := ih (fun r hr ↦ hranges r (.tail _ hr)) h
        exact ⟨more, c, by rw [List.cons_append, follow, if_pos hb, hmore]⟩
      · cases h

theorem ranges_of_leading {b : UInt8} {lead : Nat × List (UInt8 × UInt8)}
    (h : leading b = some lead) : ∀ r ∈ lead.2, r.1 ≤ r.2 := by
  rw [leading] at h
  repeat' split at h
  case isFalse => cases h
  all_goals obtain rfl := Option.some.inj h
  all_goals simp only [List.forall_mem_cons, List.not_mem_nil, false_imp_iff, implies_true,
    and_true]
  all_goals decide

/-- Incomplete bytes are one at most, or the beginning of a character's. -/
theorem length_le_one_or_exists_of_incomplete (h : front bytes = .incomplete) :
    bytes.length ≤ 1 ∨ ∃ c, bytes <+: String.utf8EncodeChar c := by
  cases bytes with
  | nil => exact .inl (Nat.zero_le 1)
  | cons b bytes =>
    by_cases hb : b < 0x80
    · rw [front, if_pos hb] at h
      cases h
    · cases hleading : leading b with
      | none =>
        rw [front, if_neg hb, hleading] at h
        dsimp only at h
        split at h
        · next hempty =>
          rw [List.isEmpty_iff.mp hempty]
          exact .inl (Nat.le_refl 1)
        · cases h
      | some lead =>
        rw [front_eq_follow hb hleading] at h
        obtain ⟨more, c, hmore⟩ := exists_completion (ranges_of_leading hleading) h
        have hfront : front (b :: bytes ++ more) = .char c [] :=
          (front_eq_follow hb hleading _).trans hmore
        rw [front_eq_char_iff, List.append_nil] at hfront
        exact .inr ⟨c, more, hfront⟩

/-- A part of an encoding may still become its character, and is not malformed. -/
theorem front_ne_malformed {c : Char} (h : bytes <+: String.utf8EncodeChar c) :
    front bytes ≠ .malformed := by
  obtain ⟨more, hmore⟩ := h
  intro hmalformed
  have happend := front_append (by rw [hmalformed]; nofun) more
  have hchar : front (String.utf8EncodeChar c) = .char c [] := by
    rw [front_eq_char_iff, List.append_nil]
  rw [hmore, hchar, hmalformed] at happend
  cases happend

end

/-! ## The longest text at the front -/

/-- The bytes of a text. -/
def encode (text : List Char) : List UInt8 := text.flatMap String.utf8EncodeChar

/-- No character is encoded at the front. -/
def Undecodable (bytes : List UInt8) : Prop := ∀ c, ¬String.utf8EncodeChar c <+: bytes

/-- The longest text whose bytes stand at the front. -/
structure IsLongestText (bytes : List UInt8) (text : List Char) : Prop where
  encode_begins : encode text <+: bytes
  length_le : ∀ text', encode text' <+: bytes → (encode text').length ≤ (encode text).length

section

variable {bytes rest : List UInt8} {text : List Char}

theorem encode_cons (c : Char) (text : List Char) :
    encode (c :: text) = String.utf8EncodeChar c ++ encode text := List.flatMap_cons ..

theorem undecodable_iff : Undecodable bytes ↔ ∀ c rest, front bytes ≠ .char c rest := by
  constructor
  · intro h c rest hfront
    exact h c ⟨rest, (front_eq_char_iff.mp hfront).symm⟩
  · rintro h c ⟨rest, hrest⟩
    exact h c rest (front_eq_char_iff.mpr hrest.symm)

/-- Incomplete bytes are undecodable. -/
theorem undecodable_of_incomplete (h : front bytes = .incomplete) : Undecodable bytes := by
  rw [undecodable_iff]
  intro c rest hchar
  cases h.symm.trans hchar

theorem undecodable_of_malformed (h : front bytes = .malformed) : Undecodable bytes := by
  rw [undecodable_iff]
  intro c rest hchar
  cases h.symm.trans hchar

theorem undecodable_nil : Undecodable [] := undecodable_of_incomplete rfl

/-- All bytes are those of a text and then an undecodable rest. -/
theorem exists_encode_append (bytes : List UInt8) :
    ∃ text rest, bytes = encode text ++ rest ∧ Undecodable rest := by
  induction bytes using front_induction with
  | char bytes c tail h ih =>
    obtain ⟨text, rest, rfl, hrest⟩ := ih
    refine ⟨c :: text, rest, ?_, hrest⟩
    rw [encode_cons, List.append_assoc]
    exact front_eq_char_iff.mp h
  | incomplete bytes h => exact ⟨[], bytes, rfl, undecodable_of_incomplete h⟩
  | malformed bytes h => exact ⟨[], bytes, rfl, undecodable_of_malformed h⟩

/-- A text is decoded character by character, and not beyond what can be decoded. -/
theorem begins_of_encode_begins {text' : List Char} (hrest : Undecodable rest)
    (h : encode text' <+: encode text ++ rest) : text' <+: text := by
  induction text' generalizing text with
  | nil => exact List.nil_prefix
  | cons c text' ih =>
    obtain ⟨more, hmore⟩ := h
    rw [encode_cons, List.append_assoc] at hmore
    cases text with
    | nil => exact absurd ⟨_, hmore⟩ (hrest c)
    | cons d text =>
      have hfront := front_utf8EncodeChar c (encode text' ++ more)
      rw [hmore, encode_cons, List.append_assoc, front_utf8EncodeChar d] at hfront
      obtain ⟨rfl, heq⟩ := Front.char.inj hfront
      exact List.cons_prefix_cons.mpr ⟨rfl, ih ⟨more, heq.symm⟩⟩

/-- A text in front of an undecodable rest is the longest one at the front. -/
theorem isLongestText_of_undecodable (h : Undecodable rest) (text : List Char) :
    IsLongestText (encode text ++ rest) text where
  encode_begins := List.prefix_append ..
  length_le text' htext' := by
    obtain ⟨more, rfl⟩ := begins_of_encode_begins h htext'
    rw [encode, encode, List.flatMap_append, List.length_append]
    exact Nat.le_add_right ..

/-- No other text is as long. -/
theorem IsLongestText.eq_of_undecodable {text' : List Char} (hrest : Undecodable rest)
    (h : IsLongestText (encode text ++ rest) text') : text' = text := by
  have hbegins := begins_of_encode_begins hrest h.encode_begins
  have hlength : (encode text').length = (encode text).length :=
    Nat.le_antisymm ((isLongestText_of_undecodable hrest text).length_le text' h.encode_begins)
      (h.length_le text (List.prefix_append ..))
  have hencode : encode text' = encode text := by
    obtain ⟨more, rfl⟩ := hbegins
    rw [encode, encode, List.flatMap_append] at hlength ⊢
    exact (List.prefix_append ..).eq_of_length hlength
  have hback : text <+: text' :=
    begins_of_encode_begins undecodable_nil ⟨[], by rw [List.append_nil, List.append_nil, hencode]⟩
  exact hbegins.eq_of_length_le hback.length_le

end

/-! ## Bytes that encode nothing -/

/-- A number spread over two bytes: marks in front, and six bits in each byte behind the first. -/
def inTwo (v : Nat) : List UInt8 := [.ofNat (v / 64 + 192), .ofNat (v % 64 + 128)]

def inThree (v : Nat) : List UInt8 :=
  [.ofNat (v / 4096 + 224), .ofNat (v / 64 % 64 + 128), .ofNat (v % 64 + 128)]

def inFour (v : Nat) : List UInt8 :=
  [.ofNat (v / 262144 + 240), .ofNat (v / 4096 % 64 + 128), .ofNat (v / 64 % 64 + 128),
    .ofNat (v % 64 + 128)]

/-- The front of some bytes is spread over more bytes than it needs, or a surrogate, or larger than
any character (with a first byte that announces more than four bytes, or none at all), or goes on
with a character that has not begun; or the bytes are only a part of an encoding. -/
inductive IllFormed : List UInt8 → Prop
  | overlongTwo {v : Nat} (rest : List UInt8) : v < 0x80 → IllFormed (inTwo v ++ rest)
  | overlongThree {v : Nat} (rest : List UInt8) : v < 0x800 → IllFormed (inThree v ++ rest)
  | overlongFour {v : Nat} (rest : List UInt8) : v < 0x10000 → IllFormed (inFour v ++ rest)
  | surrogate {v : Nat} (rest : List UInt8) :
      0xD800 ≤ v → v ≤ 0xDFFF → IllFormed (inThree v ++ rest)
  | tooLarge {v : Nat} (rest : List UInt8) :
      0x10FFFF < v → v < 0x200000 → IllFormed (inFour v ++ rest)
  | tooLong {b : UInt8} (rest : List UInt8) : 0xF8 ≤ b → IllFormed (b :: rest)
  | stray {b : UInt8} (rest : List UInt8) : 0x80 ≤ b → b ≤ 0xBF → IllFormed (b :: rest)
  | truncated {bytes : List UInt8} {c : Char} :
      bytes ≠ [] → bytes <+: String.utf8EncodeChar c → bytes ≠ String.utf8EncodeChar c →
        IllFormed bytes

section

variable {v : Nat} {b : UInt8} {bytes : List UInt8}

/-- A byte that leads nothing is undecodable. -/
theorem undecodable_of_leading_eq_none (hv : 128 ≤ v) (hlt : v < 194 ∨ 244 < v) (h : v < 256)
    (bytes : List UInt8) : Undecodable (.ofNat v :: bytes) := by
  have hb : ¬UInt8.ofNat v < 0x80 := by
    rw [UInt8.lt_iff_toNat_lt, UInt8.toNat_ofNat_of_lt' h]
    exact Nat.not_lt_of_le hv
  rw [undecodable_iff, front, if_neg hb, leading_eq_none v h hlt]
  intro c rest hchar
  dsimp only at hchar
  split at hchar <;> cases hchar

theorem undecodable_of_first (h : 128 ≤ b.toNat) (hlt : b.toNat < 194 ∨ 244 < b.toNat)
    (bytes : List UInt8) : Undecodable (b :: bytes) := by
  rw [← UInt8.ofNat_toNat (x := b)]
  exact undecodable_of_leading_eq_none h hlt b.toNat_lt bytes

/-- A second byte out of its range. -/
theorem undecodable_of_second {code : Nat} {lo hi : UInt8} {ranges : List (UInt8 × UInt8)}
    (hb : ¬b < 0x80) (hleading : leading b = some (code, (lo, hi) :: ranges)) {j : Nat}
    (hj : j < 64) (hrange : ¬(lo.toNat ≤ j + 128 ∧ j + 128 ≤ hi.toNat)) (bytes : List UInt8) :
    Undecodable (b :: .ofNat (j + 128) :: bytes) := by
  have hout : ¬(lo ≤ UInt8.ofNat (j + 128) ∧ UInt8.ofNat (j + 128) ≤ hi) := by
    rw [UInt8.le_iff_toNat_le, UInt8.le_iff_toNat_le,
      UInt8.toNat_ofNat_of_lt' (Nat.lt_of_lt_of_le (Nat.add_lt_add_right hj 128) (by decide))]
    exact hrange
  rw [undecodable_iff, front_eq_follow hb hleading, follow, if_neg hout]
  intro c rest hchar
  cases hchar

/-- Two bytes for a number that needs only one are undecodable. -/
theorem undecodable_inTwo (h : v < 0x80) (rest : List UInt8) :
    Undecodable (inTwo v ++ rest) :=
  undecodable_of_leading_eq_none (by omega) (by omega) (by omega) _

/-- Three bytes for a number that needs fewer, or for a surrogate, are undecodable. -/
theorem undecodable_inThree (h : v < 0x800 ∨ 0xD800 ≤ v ∧ v ≤ 0xDFFF) (rest : List UInt8) :
    Undecodable (inThree v ++ rest) := by
  obtain ⟨hb, hleading⟩ := leading_three (v / 4096) (by omega)
  have hj : v / 64 % 64 < 64 := Nat.mod_lt _ (by decide)
  rcases h with h | ⟨hle, hge⟩
  · rw [secondRange, if_pos (by omega)] at hleading
    refine undecodable_of_second hb hleading hj ?_ _
    rintro ⟨hlo, -⟩
    change 160 ≤ _ at hlo
    omega
  · rw [secondRange, if_neg (by omega), if_pos (by omega)] at hleading
    refine undecodable_of_second hb hleading hj ?_ _
    rintro ⟨-, hhi⟩
    change _ ≤ 159 at hhi
    omega

/-- Four bytes for a number that needs fewer, or for one beyond the last character, are
undecodable. -/
theorem undecodable_inFour (h : v < 0x10000 ∨ 0x10FFFF < v ∧ v < 0x200000) (rest : List UInt8) :
    Undecodable (inFour v ++ rest) := by
  by_cases hk : v / 262144 < 5
  · obtain ⟨hb, hleading⟩ := leading_four (v / 262144) hk
    have hj : v / 4096 % 64 < 64 := Nat.mod_lt _ (by decide)
    rcases h with h | ⟨hgt, -⟩
    · rw [secondRange, if_pos (by omega)] at hleading
      refine undecodable_of_second hb hleading hj ?_ _
      rintro ⟨hlo, -⟩
      change 144 ≤ _ at hlo
      omega
    · rw [secondRange, if_neg (by omega), if_pos (by omega)] at hleading
      refine undecodable_of_second hb hleading hj ?_ _
      rintro ⟨-, hhi⟩
      change _ ≤ 143 at hhi
      omega
  · -- the first byte begins nothing
    exact undecodable_of_leading_eq_none (by omega) (by omega) (by omega) _

theorem IllFormed.undecodable (h : IllFormed bytes) : Undecodable bytes := by
  cases h with
  | overlongTwo rest h => exact undecodable_inTwo h rest
  | overlongThree rest h => exact undecodable_inThree (.inl h) rest
  | overlongFour rest h => exact undecodable_inFour (.inl h) rest
  | surrogate rest h h' => exact undecodable_inThree (.inr ⟨h, h'⟩) rest
  | tooLarge rest h h' => exact undecodable_inFour (.inr ⟨h, h'⟩) rest
  | @tooLong b rest h =>
    rw [UInt8.le_iff_toNat_le] at h
    change 248 ≤ b.toNat at h
    exact undecodable_of_first (by omega) (by omega) rest
  | @stray b rest h h' =>
    rw [UInt8.le_iff_toNat_le] at h h'
    change 128 ≤ b.toNat at h
    change b.toNat ≤ 191 at h'
    exact undecodable_of_first h (by omega) rest
  | @truncated _ c _ h hne =>
    rintro d ⟨rest, rfl⟩
    obtain ⟨more, hmore⟩ := h
    -- an encoding does not begin with another one
    have hfront := front_utf8EncodeChar d (rest ++ more)
    rw [← List.append_assoc, hmore, front_eq_char_iff.mpr (List.append_nil _).symm] at hfront
    obtain ⟨rfl, hnil⟩ := Front.char.inj hfront
    rw [(List.append_eq_nil_iff.mp hnil.symm).1, List.append_nil] at hne
    exact hne rfl

theorem IllFormed.ne_nil (h : IllFormed bytes) : bytes ≠ [] := by
  cases h with
  | truncated h _ _ => exact h
  | _ => exact nofun

end

end RegexScan.Text.Utf8

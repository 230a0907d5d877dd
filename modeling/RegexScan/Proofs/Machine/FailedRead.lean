import RegexScan.Proofs.Machine.Failure
import RegexScan.Proofs.Reader.LongestText

/-!
# Invalid bytes before a read that fails

A read that fails is the end of a scan, and the scan reports the failure unless the bytes before it
cannot be the beginning of a text.  Then it has reported that already.  There is one exception:
behind a text, a single byte is always kept for the next read, even if no character begins with it,
so what is reported is that this read failed.
-/

namespace RegexScan

namespace Text.Utf8

/-- The bytes are the beginning of some text, or all of it. -/
def BeginsText (bytes : List UInt8) : Prop := ∃ text, bytes <+: encode text

section

variable {text : List Char} {rest : List UInt8}

theorem encode_append (text text' : List Char) :
    encode (text ++ text') = encode text ++ encode text' := List.flatMap_append

theorem beginsText_encode_append_iff : BeginsText (encode text ++ rest) ↔ BeginsText rest := by
  constructor
  · rintro ⟨text', h⟩
    have hbegins : encode text <+: encode text' ++ [] :=
      (List.append_nil _).symm ▸ (List.prefix_append ..).trans h
    obtain ⟨later, rfl⟩ := begins_of_encode_begins undecodable_nil hbegins
    rw [encode_append, List.prefix_append_right_inj] at h
    exact ⟨later, h⟩
  · rintro ⟨later, h⟩
    refine ⟨text ++ later, ?_⟩
    rw [encode_append, List.prefix_append_right_inj]
    exact h

/-- When no character is decoded, the bytes begin a text only as a part of one character. -/
theorem beginsText_iff_of_undecodable (h : Undecodable rest) :
    BeginsText rest ↔ rest = [] ∨ ∃ c, rest <+: String.utf8EncodeChar c := by
  constructor
  · rintro ⟨text, hrest⟩
    cases text with
    | nil => exact .inl (List.prefix_nil.mp hrest)
    | cons c text =>
      rw [encode_cons] at hrest
      rcases List.prefix_or_prefix_of_prefix hrest (List.prefix_append ..) with hc | hc
      · exact .inr ⟨c, hc⟩
      · exact absurd hc (h c)
  · rintro (rfl | ⟨c, hc⟩)
    · exact ⟨[], List.nil_prefix⟩
    · refine ⟨[c], hc.trans ?_⟩
      rw [encode_cons]
      exact List.prefix_append ..

/-- Bytes are found to be malformed when they begin no text, but not as long as there is only one of
them. -/
theorem front_eq_malformed_iff (h : Undecodable rest) :
    front rest = .malformed ↔ ¬BeginsText rest ∧ rest.length ≠ 1 := by
  rw [beginsText_iff_of_undecodable h]
  constructor
  · intro hmalformed
    refine ⟨?_, fun hlength ↦ ?_⟩
    · rintro (rfl | ⟨c, hc⟩)
      · cases hmalformed
      · exact front_ne_malformed hc hmalformed
    · obtain ⟨b, rfl⟩ := List.length_eq_one_iff.mp hlength
      exact front_singleton_ne_malformed b hmalformed
  · rintro ⟨hbegins, hlength⟩
    rw [not_or] at hbegins
    cases hfront : front rest with
    | char c tail => exact absurd hfront (undecodable_iff.mp h c tail)
    | incomplete =>
      rcases length_le_one_or_exists_of_incomplete hfront with hle | hc
      · have hpos : 0 < rest.length := List.length_pos_iff.mpr hbegins.1
        exact absurd (Nat.le_antisymm hle hpos) hlength
      · exact absurd hc hbegins.2
    | malformed => rfl

/-- What is left over is a single byte if all the bytes are a text and one byte more. -/
theorem length_le_one_of_append_eq {text' : List Char} {b : UInt8} (hrest : Undecodable rest)
    (h : encode text ++ rest = encode text' ++ [b]) : rest.length ≤ 1 := by
  obtain ⟨later, rfl⟩ := begins_of_encode_begins hrest ⟨[b], h.symm⟩
  rw [encode_append, List.append_assoc] at h
  have hlength := congrArg List.length (List.append_cancel_left h)
  rw [List.length_append, List.length_singleton] at hlength
  omega

/-- What stands behind a text is malformed when it begins no text and is no single byte. -/
theorem front_rest_eq_malformed_iff (text : List Char) (hrest : Undecodable rest) :
    front rest = .malformed ↔
      ¬BeginsText (encode text ++ rest) ∧ ∀ text' b, encode text ++ rest ≠ encode text' ++ [b] := by
  rw [front_eq_malformed_iff hrest, beginsText_encode_append_iff, and_congr_right_iff]
  intro hbegins
  constructor
  · intro hlength text' b h
    have hne : rest ≠ [] := by
      rintro rfl
      exact hbegins ⟨[], List.nil_prefix⟩
    have hle := length_le_one_of_append_eq hrest h
    exact hlength (Nat.le_antisymm hle (List.length_pos_iff.mpr hne))
  · intro h hlength
    obtain ⟨b, rfl⟩ := List.length_eq_one_iff.mp hlength
    exact h text b rfl

end

end Text.Utf8

open Text.Utf8

/-- A read that fails comes behind the text that was decoded before, unless what is left over of the
bytes was found to be malformed. -/
theorem Reader.Serves.polls_failedRead {reads : List Read} {text : List Char} {rest : List UInt8}
    {e : ReadError} (h : Serves reads (encode text ++ rest)) (hrest : Undecodable rest)
    (he : e.kind ≠ .interrupted) (later : List Read) :
    polls [] (reads ++ .failure e :: later) =
      Scan.failing text (if front rest = .malformed then .notUtf8 else e) := by
  rw [h.polls_append, List.nil_append, polls, encode, pollsWith_encode_append, Scan.failing]
  congr 1
  cases hfront : front rest with
  | char c tail => exact absurd hfront (undecodable_iff.mp hrest c tail)
  | incomplete =>
    have hne : Front.incomplete ≠ .malformed := by
      intro h
      cases h
    rw [pollsWith_of_incomplete _ hfront, if_neg he, if_neg hne]
  | malformed => rw [pollsWith_of_malformed _ hfront, if_pos rfl]

namespace Machine

variable {m : Type → Type} [Monad m] [LawfulMonad m] {machine : Machine m}

/-- A scan that no action stops comes to the failure of its source. -/
theorem NeverStops.scan_failing (hnever : machine.NeverStops) {reads : List Read}
    {text : List Char} {e : ReadError} (hreads : Reader.polls [] reads = Scan.failing text e) :
    Always (· = .error (.unreadable e)) (machine.scan reads) := by
  have hresult := Scan.result_outcome_failing machine.dfa text e 0
  rw [List.drop_zero] at hresult
  rw [scan_eq_map, hreads, Scan.run_eq_feed, hresult, Scan.feed_eq_of_never hnever.dispatch,
    ← comp_map]
  exact (always_true _).map fun _ _ ↦ rfl

/-- Behind bytes that begin a text, a scan reports that a read failed.  Behind other bytes it
reports that they are not text, unless only the last one of them does not belong to the text, which
is not noticed before the next byte. -/
theorem scan_failedRead (hnever : machine.NeverStops) {reads : List Read} {bytes : List UInt8}
    (hserves : Reader.Serves reads bytes) {e : ReadError} (he : e.kind ≠ .interrupted)
    (capacity : Nat) (later : List Read) :
    let scanned := machine.scan (Reader.buffered capacity (reads ++ .failure e :: later))
    (BeginsText bytes → Always (· = .error (.unreadable e)) scanned) ∧
      (¬BeginsText bytes → (∀ text b, bytes ≠ encode text ++ [b]) →
        Always (· = .error (.unreadable .notUtf8)) scanned) ∧
      ∀ text b, bytes = encode text ++ [b] → Always (· = .error (.unreadable e)) scanned := by
  intro scanned
  obtain ⟨text, rest, rfl, hrest⟩ := exists_encode_append bytes
  have hpolls := hserves.polls_failedRead hrest he later
  rw [← Reader.polls_buffered capacity] at hpolls
  have hscanned := hnever.scan_failing hpolls
  have hmalformed := front_rest_eq_malformed_iff text hrest
  refine ⟨fun hbegins ↦ ?_, fun hbegins hbyte ↦ ?_, fun text' b hbyte ↦ ?_⟩
  · rwa [if_neg fun h ↦ (hmalformed.mp h).1 hbegins] at hscanned
  · rwa [if_pos (hmalformed.mpr ⟨hbegins, hbyte⟩)] at hscanned
  · rwa [if_neg fun h ↦ (hmalformed.mp h).2 text' b hbyte] at hscanned

/-- A part of a character, a character that goes on with another one, and a surrogate whose last
byte is missing. -/
theorem scan_failedRead_in_character :
    let machine : Machine Id :=
      ⟨⟨0, #[⟨[⟨⟨['a'], false, by decide⟩, 1⟩], none⟩, ⟨[], some 0⟩]⟩, [⟨"a", fun _ ↦ false⟩]⟩
    let failure : ReadError := ⟨.timedOut, "timed out"⟩
    let scanned (bytes : List UInt8) : Except MachineError Unit :=
      machine.scan (Reader.buffered 2 ([.bytes [0x61, 0x62, 0x61],
        .failure ⟨.interrupted, "interrupted"⟩, .bytes bytes] ++ [.failure failure]))
    scanned [0xC3] = .error (.unreadable failure) ∧
      scanned [0xC3, 0x28] = .error (.unreadable .notUtf8) ∧
      scanned [0xED, 0xA0] = .error (.unreadable .notUtf8) := by
  intro machine failure scanned
  have hnever : machine.NeverStops := by
    intro rule hrule found
    rw [List.mem_singleton.mp hrule]
    exact always_pure rfl
  have hserves (bytes : List UInt8) (hne : bytes ≠ []) :
      Reader.Serves [.bytes [0x61, 0x62, 0x61], .failure ⟨.interrupted, "interrupted"⟩,
        .bytes bytes] (encode ['a', 'b', 'a'] ++ bytes) := by
    rw [← List.append_nil (_ ++ bytes), List.append_assoc]
    exact .bytes (by decide) (.interrupted rfl (.bytes hne .done))
  have hmalformed (bytes : List UInt8) (h : front bytes = .malformed) :=
    (front_rest_eq_malformed_iff ['a', 'b', 'a'] (undecodable_of_malformed h)).mp h
  have he : failure.kind ≠ .interrupted := by decide
  refine ⟨?_, ?_, ?_⟩
  · obtain ⟨⟨_, h⟩, rfl⟩ := (scan_failedRead hnever (hserves [0xC3] (by decide)) he 2 []).1
      (beginsText_encode_append_iff.mpr ⟨['é'], by decide⟩)
    exact h
  · obtain ⟨hbegins, hbyte⟩ := hmalformed [0xC3, 0x28] (by decide)
    obtain ⟨⟨_, h⟩, rfl⟩ :=
      (scan_failedRead hnever (hserves _ (by decide)) he 2 []).2.1 hbegins hbyte
    exact h
  · obtain ⟨hbegins, hbyte⟩ := hmalformed [0xED, 0xA0] (by decide)
    obtain ⟨⟨_, h⟩, rfl⟩ :=
      (scan_failedRead hnever (hserves _ (by decide)) he 2 []).2.1 hbegins hbyte
    exact h

/-- No text begins with a byte that begins no character.  But what is reported is that the read
behind the byte failed. -/
theorem build_scans_stray_byte :
    ¬BeginsText [0xFF] ∧
      ∃ rules : RuleSet Id, rules.patterns = ["a"] ∧ ∃ machine, build rules = .ok machine ∧
        machine.NeverStops ∧
        machine.scan [.bytes [0xFF], .failure ⟨.timedOut, "timed out"⟩] =
          .error (.unreadable ⟨.timedOut, "timed out"⟩) := by
  constructor
  · have hstray (rest : List UInt8) : Undecodable (0xFF :: rest) :=
      (IllFormed.tooLong rest (by decide)).undecodable
    rw [beginsText_iff_of_undecodable (hstray [])]
    rintro (hnil | ⟨c, rest, hc⟩)
    · cases hnil
    · exact hstray rest c ⟨[], (List.append_nil _).trans hc.symm⟩
  · let onA : Dfa.Transition := ⟨⟨['a'], false, by decide⟩, 1⟩
    let rules : RuleSet Id := ⟨[⟨"a", fun _ ↦ false⟩], none⟩
    refine ⟨rules, rfl, ⟨⟨0, #[⟨[onA], none⟩, ⟨[], some 0⟩]⟩, rules.rules⟩, ?_, ?_, ?_⟩
    · cbv
    · intro rule hrule found
      rw [List.mem_singleton.mp hrule]
      exact always_pure rfl
    · cbv

end Machine

end RegexScan

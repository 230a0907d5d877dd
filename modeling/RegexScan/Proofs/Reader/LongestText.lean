import Mathlib.Data.Nat.Find
import Mathlib.Order.Bounds.Basic
import RegexScan.Proofs.Reader.Decoder
import RegexScan.Proofs.Text.Encoding

/-!
# The longest text is decoded

A decoder asks for one character at the front of its bytes.  It is told the character and the number
of its bytes, or only the number of bytes that may begin a character.  From that number it guesses
whether more bytes help: never behind four bytes, and never when the bytes that may begin a
character are not all that there are.  The guess is right, so what is decoded does not depend on
where the reads are split.  It is the longest text at the front of the bytes that are read, and
behind it comes the end of the input or, when bytes are left over, a failure.
-/

namespace RegexScan

namespace Text.Utf8

/-! ## One character at the front -/

/-- The numbers of bytes at the front that may begin a character.  A first byte is always counted,
even if no character begins with it. -/
def beginnings (bytes : List UInt8) : Set ℕ :=
  {n | n ≤ bytes.length ∧ (n = 1 ∨ ∃ c, bytes.take n <+: String.utf8EncodeChar c)}

/-- What is relied on: a character comes with the number of its bytes, and without one the number
says how many bytes at most may begin a character. -/
structure DecodesOne (decodeOne : List UInt8 → Option Char × Nat) : Prop where
  char : ∀ c rest, decodeOne (String.utf8EncodeChar c ++ rest) =
    (some c, (String.utf8EncodeChar c).length)
  none : ∀ bytes, Undecodable bytes → (decodeOne bytes).1 = none
  size : ∀ bytes, bytes ≠ [] → Undecodable bytes →
    IsGreatest (beginnings bytes) (decodeOne bytes).2

section

variable {bytes : List UInt8}

/-- All of some incomplete bytes may begin a character. -/
theorem length_mem_beginnings (h : front bytes = .incomplete) (hne : bytes ≠ []) :
    bytes.length ∈ beginnings bytes := by
  refine ⟨Nat.le_refl _, ?_⟩
  rcases length_le_one_or_exists_of_incomplete h with hle | ⟨c, hc⟩
  · exact .inl (Nat.le_antisymm hle (List.length_pos_iff.mpr hne))
  · exact .inr ⟨c, List.take_length.symm ▸ hc⟩

theorem length_lt_four (h : front bytes = .incomplete) : bytes.length < 4 := by
  rcases length_le_one_or_exists_of_incomplete h with hle | ⟨c, hc⟩
  · exact Nat.lt_of_le_of_lt hle (by decide)
  · have hne : bytes ≠ String.utf8EncodeChar c := by
      rintro rfl
      exact undecodable_of_incomplete h c (List.prefix_refl _)
    have hlt := Nat.lt_of_le_of_ne hc.length_le fun hlength ↦ hne (hc.eq_of_length hlength)
    rw [String.length_utf8EncodeChar] at hlt
    exact Nat.lt_of_lt_of_le hlt c.utf8Size_le_four

/-- One byte is never malformed. -/
theorem front_singleton_ne_malformed (b : UInt8) : front [b] ≠ .malformed := by
  intro h
  by_cases hb : b < 0x80
  · rw [front, if_pos hb] at h
    cases h
  · cases hleading : leading b with
    | none =>
      rw [front, if_neg hb, hleading] at h
      cases h
    | some lead =>
      obtain ⟨code, ranges⟩ := lead
      rw [front_eq_follow hb hleading] at h
      cases ranges <;> cases h

/-- The beginnings of a character are not malformed. -/
theorem front_take_ne_malformed {n : ℕ} (h : n ∈ beginnings bytes) :
    front (bytes.take n) ≠ .malformed := by
  obtain ⟨hle, rfl | ⟨c, hc⟩⟩ := h
  · cases bytes with
    | nil => cases hle
    | cons b bytes => exact front_singleton_ne_malformed b
  · exact front_ne_malformed hc

end

end Text.Utf8

namespace Reader.Decoder

open Text.Utf8

/-! ## The guess from two lengths -/

/-- What is done about the unread bytes. -/
inductive Verdict where
  /-- The character takes this many bytes. -/
  | take (c : Char) (size : Nat)
  | reject
  | readMore

section

variable (decodeOne : List UInt8 → Option Char × Nat)

/-- Without a character, more bytes are read when all of them may begin one, and there are fewer
than four. -/
def verdict (unread : List UInt8) : Verdict :=
  if unread.isEmpty then .readMore
  else match decodeOne unread with
    | (some c, size) => .take c size
    | (none, size) =>
      if size < unread.length ∨ 4 ≤ unread.length then .reject else .readMore

/-- Take a character, or read until that is possible. -/
def nextFromBy (bytes : List UInt8) (position asked : Nat) (reads : List Read) :
    Except Fault (Poll ReadError × Decoder) :=
  if bytes.length < position then .error .bytes
  else
    let unread := bytes.drop position
    match verdict decodeOne unread with
    | .take c size => .ok (.char c, ⟨bytes, position + size, reads, asked⟩)
    | .reject => .ok (.failure .notUtf8, ⟨[], 0, reads, asked⟩)
    | .readMore =>
      match reads with
      | [] => .ok (atEnd unread, ⟨[], 0, [], asked + 1⟩)
      | .bytes [] :: reads => .ok (atEnd unread, ⟨[], 0, reads, asked + 1⟩)
      | .bytes bs :: reads => nextFromBy (unread ++ bs) 0 (asked + 1) reads
      | .failure e :: reads =>
        if e.kind = .interrupted then nextFromBy unread 0 (asked + 1) reads
        else .ok (.failure e, ⟨unread, 0, reads, asked + 1⟩)

/-- The next `n` answers. -/
def answersBy (d : Decoder) : Nat → Except Fault (List (Poll ReadError))
  | 0 => .ok []
  | n + 1 =>
    match nextFromBy decodeOne d.bytes d.position d.asked d.reads with
    | .error fault => .error fault
    | .ok (poll, d) => (answersBy d n).map (poll :: ·)

end

variable {decodeOne : List UInt8 → Option Char × Nat} (h : DecodesOne decodeOne)

include h

theorem verdict_of_char {unread rest : List UInt8} {c : Char}
    (hfront : front unread = .char c rest) :
    verdict decodeOne unread = .take c (unread.length - rest.length) := by
  have hpos := length_front hfront
  rw [front_eq_char_iff] at hfront
  have hne : unread.isEmpty = false := by
    rw [List.isEmpty_eq_false_iff, ← List.length_pos_iff]
    exact Nat.zero_lt_of_lt hpos
  have hsize : unread.length - rest.length = (String.utf8EncodeChar c).length := by
    rw [hfront, List.length_append, Nat.add_sub_cancel]
  rw [verdict, hne, if_neg Bool.false_ne_true, hsize, hfront, h.char]

/-- The number is told apart from the length of the bytes just when they are malformed. -/
theorem verdict_of_undecodable {unread : List UInt8} (hunread : Undecodable unread)
    (hne : unread ≠ []) :
    verdict decodeOne unread =
      if (decodeOne unread).2 < unread.length ∨ 4 ≤ unread.length then .reject else .readMore := by
  rw [verdict, List.isEmpty_eq_false_iff.mpr hne, if_neg Bool.false_ne_true]
  have hnone := h.none unread hunread
  generalize decodeOne unread = answer at hnone ⊢
  obtain ⟨c?, size⟩ := answer
  cases hnone
  rfl

theorem verdict_of_incomplete {unread : List UInt8} (hfront : front unread = .incomplete) :
    verdict decodeOne unread = .readMore := by
  by_cases hne : unread = []
  · rw [hne]
    rfl
  · have hunread := undecodable_of_incomplete hfront
    have hle := (h.size unread hne hunread).2 (length_mem_beginnings hfront hne)
    have hlt := length_lt_four hfront
    rw [verdict_of_undecodable h hunread hne, if_neg (by omega)]

theorem verdict_of_malformed {unread : List UInt8} (hfront : front unread = .malformed) :
    verdict decodeOne unread = .reject := by
  have hne : unread ≠ [] := by
    rintro rfl
    cases hfront
  have hunread := undecodable_of_malformed hfront
  have hmem := (h.size unread hne hunread).1
  have hlt : (decodeOne unread).2 < unread.length := by
    refine Nat.lt_of_le_of_ne hmem.1 fun hsize ↦ front_take_ne_malformed hmem ?_
    rw [hsize, List.take_length]
    exact hfront
  rw [verdict_of_undecodable h hunread hne, if_pos (.inl hlt)]

/-- The guess is right at every read. -/
theorem nextFromBy_eq (bytes : List UInt8) (position asked : Nat) (reads : List Read) :
    nextFromBy decodeOne bytes position asked reads = nextFrom bytes position asked reads := by
  fun_induction nextFrom bytes position asked reads with
  | case1 reads bytes position asked hlt => rw [nextFromBy, if_pos hlt]
  | case2 reads bytes position asked hle unread c rest hfront =>
    rw [nextFromBy, if_neg hle]
    dsimp only
    rw [verdict_of_char h hfront]
  | case3 reads bytes position asked hle unread hfront =>
    rw [nextFromBy, if_neg hle]
    dsimp only
    rw [verdict_of_malformed h hfront]
  | case4 bytes position asked hle unread hfront =>
    rw [nextFromBy, if_neg hle]
    dsimp only
    rw [verdict_of_incomplete h hfront]
  | case5 bytes position asked hle unread hfront reads =>
    rw [nextFromBy, if_neg hle]
    dsimp only
    rw [verdict_of_incomplete h hfront]
  | case6 bytes position asked hle unread hfront bs reads hbs ih =>
    rw [nextFromBy, if_neg hle]
    dsimp only
    rw [verdict_of_incomplete h hfront]
    cases bs with
    | nil => exact absurd rfl hbs
    | cons b bs => exact ih
  | case7 bytes position asked hle unread hfront e reads he ih =>
    rw [nextFromBy, if_neg hle]
    dsimp only
    rw [verdict_of_incomplete h hfront]
    exact (if_pos he).trans ih
  | case8 bytes position asked hle unread hfront e reads he =>
    rw [nextFromBy, if_neg hle]
    dsimp only
    rw [verdict_of_incomplete h hfront]
    exact if_neg he

/-! ## One answer after the other -/

/-- The next answer is the first of those that are to come. -/
theorem answersBy_succ {d : Decoder} (hd : d.InRange) :
    ∃ poll d', d.Answers poll d' ∧
      ∀ n, answersBy decodeOne d (n + 1) = (answersBy decodeOne d' n).map (poll :: ·) := by
  obtain ⟨poll, d', hnext, hanswers⟩ := hd.next
  refine ⟨poll, d', hanswers, fun n ↦ ?_⟩
  rw [answersBy, nextFromBy_eq h]
  rw [next] at hnext
  rw [hnext]

/-- The characters of a text are answered one by one, then what comes later. -/
theorem answersBy_chars {text : List Char} {later : List (Poll ReadError)} {d : Decoder}
    (hd : d.InRange) (hpolls : d.polls = text.map .char ++ later) :
    ∃ d' : Decoder, d'.InRange ∧ d'.polls = later ∧
      ∀ n, answersBy decodeOne d (text.length + n) =
        (answersBy decodeOne d' n).map (text.map .char ++ ·) := by
  induction text generalizing d with
  | nil =>
    refine ⟨d, hd, hpolls, fun n ↦ ?_⟩
    rw [List.length_nil, Nat.zero_add]
    exact (congrFun Except.map_id _).symm
  | cons c text ih =>
    obtain ⟨poll, d₁, hanswers, hsucc⟩ := answersBy_succ h hd
    cases hanswers with
    | char hchar hd₁ _ _ =>
      obtain ⟨heq, hpolls₁⟩ := List.cons.inj (hchar.symm.trans hpolls)
      cases heq
      obtain ⟨d', hd', hlater, hrest⟩ := ih hd₁ hpolls₁
      refine ⟨d', hd', hlater, fun n ↦ ?_⟩
      rw [List.length_cons, Nat.add_right_comm, hsucc, hrest]
      cases answersBy decodeOne d' n <;> rfl
    | endOfInput hend _ _ _ =>
      rw [hpolls] at hend
      rcases hend with ⟨hnil, -⟩ | hcons
      · cases hnil
      · cases hcons
    | failure hfailure _ _ => cases hpolls.symm.trans hfailure

/-- Behind all reads the input ends, again and again. -/
theorem answersBy_end {d : Decoder} (hd : d.InRange) (hpolls : d.polls = []) (n : Nat) :
    answersBy decodeOne d n = .ok (.replicate n .endOfInput) := by
  induction n generalizing d with
  | zero => rfl
  | succ n ih =>
    obtain ⟨poll, d', hanswers, hsucc⟩ := answersBy_succ h hd
    cases hanswers with
    | char hchar _ _ _ => cases hpolls.symm.trans hchar
    | endOfInput hend hd' _ _ =>
      rcases hend with ⟨-, hpolls'⟩ | hcons
      · rw [hsucc, ih hd' hpolls']
        rfl
      · cases hpolls.symm.trans hcons
    | failure hfailure _ _ => cases hpolls.symm.trans hfailure

theorem answersBy_failure {d : Decoder} {e : ReadError} (hd : d.InRange)
    (hpolls : d.polls = [.failure e]) : answersBy decodeOne d 1 = .ok [.failure e] := by
  obtain ⟨poll, d', hanswers, hsucc⟩ := answersBy_succ h hd
  cases hanswers with
  | char hchar _ _ _ => cases hpolls.symm.trans hchar
  | endOfInput hend _ _ _ =>
    rcases hend with ⟨hnil, -⟩ | hcons
    · cases hpolls.symm.trans hnil
    · cases hpolls.symm.trans hcons
  | failure hfailure _ _ =>
    cases hpolls.symm.trans hfailure
    exact hsucc 0

omit h

/-! ## What is read as a whole -/

/-- What is answered to all the bytes: the text that was split off in front, and a failure if
something else is left over. -/
theorem polls_encode_append (text : List Char) {rest : List UInt8} (hrest : Undecodable rest) :
    Reader.polls (encode text ++ rest) [] =
      text.map .char ++ if rest.isEmpty then [] else [.failure .notUtf8] := by
  rw [Reader.polls, encode, pollsWith_encode_append]
  congr 1
  cases hfront : front rest with
  | char c tail => exact absurd hfront (undecodable_iff.mp hrest c tail)
  | incomplete => exact pollsWith_of_incomplete _ hfront
  | malformed =>
    have hne : rest.isEmpty = false := by
      cases rest with
      | nil => cases hfront
      | cons => rfl
    rw [pollsWith_of_malformed _ hfront, hne]
    rfl

/-- A buffer of any capacity in front of the reads does not change the polls. -/
theorem polls_ofReads_buffered {reads : List Read} {bytes : List UInt8} (h : Serves reads bytes)
    (capacity : Nat) : (ofReads (buffered capacity reads)).polls = Reader.polls bytes [] := by
  have hpolls := h.polls_append [] []
  rw [List.append_nil, List.nil_append] at hpolls
  rw [polls_ofReads, polls_buffered, hpolls]

/-! ## A decoder of one character -/

/-- The character at the front with the number of its bytes, or the most bytes that are still
incomplete. -/
def decodeFirst (bytes : List UInt8) : Option Char × Nat :=
  match front bytes with
  | .char c rest => (some c, bytes.length - rest.length)
  | _ => (none, Nat.findGreatest (fun n ↦ front (bytes.take n) = .incomplete) bytes.length)

/-- Where no character begins, the longest incomplete beginning is given up. -/
theorem decodeFirst_of_undecodable {bytes : List UInt8} (h : Undecodable bytes) :
    decodeFirst bytes =
      (none, Nat.findGreatest (fun n ↦ front (bytes.take n) = .incomplete) bytes.length) := by
  rw [decodeFirst]
  cases hfront : front bytes with
  | char c rest => exact absurd hfront (undecodable_iff.mp h c rest)
  | incomplete => rfl
  | malformed => rfl

/-- What may begin a character is incomplete, when nothing is decoded. -/
theorem front_take_of_mem_beginnings {bytes : List UInt8} (h : Undecodable bytes) {n : Nat}
    (hn : n ∈ beginnings bytes) : front (bytes.take n) = .incomplete := by
  cases hfront : front (bytes.take n) with
  | char c rest =>
    have happend := front_append (by rw [hfront]; nofun) (bytes.drop n)
    rw [List.take_append_drop, hfront] at happend
    exact absurd happend (undecodable_iff.mp h c _)
  | incomplete => rfl
  | malformed => exact absurd hfront (front_take_ne_malformed hn)

/-- This decoder does what is asked of one. -/
theorem decodesOne_decodeFirst : DecodesOne decodeFirst where
  char c rest := by
    rw [decodeFirst, front_utf8EncodeChar]
    dsimp only
    rw [List.length_append, Nat.add_sub_cancel]
  none bytes h := by rw [decodeFirst_of_undecodable h]
  size bytes hne h := by
    rw [decodeFirst_of_undecodable h]
    set P : Nat → Prop := fun n ↦ front (bytes.take n) = .incomplete
    have hpos : 1 ≤ bytes.length := List.length_pos_iff.mpr hne
    have hfirst : P 1 := front_take_of_mem_beginnings h ⟨hpos, .inl rfl⟩
    have hincomplete : P (Nat.findGreatest P bytes.length) := Nat.findGreatest_spec hpos hfirst
    refine ⟨⟨Nat.findGreatest_le _, ?_⟩, fun n hn ↦
      Nat.le_findGreatest hn.1 (front_take_of_mem_beginnings h hn)⟩
    rcases length_le_one_or_exists_of_incomplete hincomplete with hle | hbegins
    · rw [List.length_take, Nat.min_eq_left (Nat.findGreatest_le _)] at hle
      exact .inl (Nat.le_antisymm hle (Nat.le_findGreatest hpos hfirst))
    · exact .inr hbegins

/-- However some bytes are split into reads, and through a buffer of any size, a decoder answers
with the longest text whose bytes stand in front.  Behind it the input ends, and goes on to end,
when the text is all of the bytes; otherwise the decoder fails.  Bytes that are ill-formed are never
a part of the text. -/
theorem decoder_yields_longest_text (h : DecodesOne decodeOne) (bytes : List UInt8) :
    (∃! text, IsLongestText bytes text) ∧
      (∀ text reads capacity, IsLongestText bytes text → Serves reads bytes →
        (encode text = bytes → ∀ n,
          answersBy decodeOne (ofReads (buffered capacity reads)) (text.length + n) =
            .ok (text.map .char ++ .replicate n .endOfInput)) ∧
        (encode text ≠ bytes →
          answersBy decodeOne (ofReads (buffered capacity reads)) (text.length + 1) =
            .ok (text.map .char ++ [.failure .notUtf8]))) ∧
      ∀ text rest, bytes = encode text ++ rest → IllFormed rest →
        IsLongestText bytes text ∧ encode text ≠ bytes := by
  obtain ⟨text, rest, hbytes, hrest⟩ := exists_encode_append bytes
  refine ⟨⟨text, ?_, ?_⟩, ?_, ?_⟩
  · rw [hbytes]
    exact isLongestText_of_undecodable hrest text
  · intro text' htext'
    rw [hbytes] at htext'
    exact htext'.eq_of_undecodable hrest
  · intro text' reads capacity htext' hreads
    rw [hbytes] at htext'
    obtain rfl := htext'.eq_of_undecodable hrest
    have hpolls := polls_ofReads_buffered hreads capacity
    rw [hbytes, polls_encode_append _ hrest] at hpolls
    obtain ⟨d, hd, hlater, hanswers⟩ := answersBy_chars h (inRange_ofReads _) hpolls
    refine ⟨fun hall n ↦ ?_, fun hleft ↦ ?_⟩
    · have hnil : rest = [] := List.append_right_eq_self.mp (hbytes.symm.trans hall.symm)
      rw [hnil] at hlater
      rw [hanswers, answersBy_end h hd hlater]
      rfl
    · have hne : rest.isEmpty = false := by
        rw [List.isEmpty_eq_false_iff]
        rintro rfl
        exact hleft (hbytes.trans (List.append_nil _)).symm
      rw [hne] at hlater
      rw [hanswers, answersBy_failure h hd hlater]
      rfl
  · intro text' rest' hbytes' hrest'
    refine ⟨hbytes' ▸ isLongestText_of_undecodable hrest'.undecodable text', fun hall ↦ ?_⟩
    exact hrest'.ne_nil (List.append_right_eq_self.mp (hbytes'.symm.trans hall.symm))

/-- A character that is split between reads, a read that is interrupted, and a surrogate. -/
theorem decoder_stops_at_surrogate :
    let reads : List Read := [.bytes [0x61, 0xE2], .failure ⟨.interrupted, ""⟩, .bytes [0x82],
      .bytes [0xAC, 0xED, 0xA0], .bytes [0x80]]
    answersBy decodeFirst (ofReads (buffered 2 reads)) 3 =
      .ok [.char 'a', .char '€', .failure .notUtf8] := by
  have hyields := decoder_yields_longest_text decodesOne_decodeFirst
    [0x61, 0xE2, 0x82, 0xAC, 0xED, 0xA0, 0x80]
  obtain ⟨htext, hleft⟩ := hyields.2.2 ['a', '€'] [0xED, 0xA0, 0x80] (by decide)
    (.surrogate (v := 0xD800) [] (by decide) (by decide))
  refine (hyields.2.1 ['a', '€'] _ 2 htext ?_).2 hleft
  exact .bytes (by decide) (.interrupted rfl (.bytes (by decide) (.bytes (by decide)
    (.bytes (by decide) .done))))

end Reader.Decoder

end RegexScan

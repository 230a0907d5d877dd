import RegexScan.Proofs.Reader.Polls

/-!
# Decoding read by read

A reader does not hand out all answers at once.  A decoder keeps the bytes that were read last and
the position behind the characters that were taken from them, and reads again when what is left is
not a character.  Its position never leaves its bytes, its answers are those of the source one by
one, and no answer takes more reads than there are.
-/

namespace RegexScan

namespace Text.Utf8

theorem suffix_of_follow {code : Nat} {ranges : List (UInt8 × UInt8)} {bytes rest : List UInt8}
    {c : Char} (h : follow code ranges bytes = .char c rest) : rest <:+ bytes := by
  induction ranges generalizing code bytes with
  | nil =>
    cases h
    exact List.suffix_refl _
  | cons range ranges ih =>
    cases bytes with
    | nil => cases h
    | cons b bytes =>
      rw [follow] at h
      split at h
      · exact (ih h).trans (List.suffix_cons b bytes)
      · cases h

/-- What is left behind a character is a part of the bytes. -/
theorem suffix_of_front {bytes rest : List UInt8} {c : Char} (h : front bytes = .char c rest) :
    rest <:+ bytes := by
  cases bytes with
  | nil => cases h
  | cons b bytes =>
    rw [front] at h
    split at h
    · cases h
      exact List.suffix_cons b _
    · split at h
      · exact (suffix_of_follow h).trans (List.suffix_cons b bytes)
      · split at h <;> cases h

end Text.Utf8

/-- What must not happen in a scan: a position behind the bytes of a decoder, an index behind the
characters of a window, more characters to drop than the window holds, a state of the automaton that
does not exist, and a rule that does not. -/
inductive Fault where
  | bytes
  | index
  | drain
  | state
  | rule
deriving DecidableEq, Repr

namespace Reader

/-- More than the reads that are left, and more than the bytes in them. -/
def weight : List Read → Nat
  | [] => 0
  | .bytes bs :: reads => bs.length + 1 + weight reads
  | .failure _ :: reads => 1 + weight reads

/-- The bytes read last, the position in them, the reads to come, and how often one was asked
for. -/
structure Decoder where
  bytes : List UInt8
  position : Nat
  reads : List Read
  asked : Nat

namespace Decoder

/-- A decoder that has not read yet. -/
def ofReads (reads : List Read) : Decoder := ⟨[], 0, reads, 0⟩

/-- A read of no bytes is the end of the input, unless bytes are left over. -/
def atEnd (unread : List UInt8) : Poll ReadError :=
  if unread.isEmpty then .endOfInput else .failure .notUtf8

/-- Take a character out of the bytes behind a position, or read until that is possible.  When no
reads are left, the reader serves no more bytes, however often it is asked. -/
def nextFrom (bytes : List UInt8) (position asked : Nat) (reads : List Read) :
    Except Fault (Poll ReadError × Decoder) :=
  if bytes.length < position then .error .bytes
  else
    let unread := bytes.drop position
    match Text.Utf8.front unread with
    | .char c rest => .ok (.char c, ⟨bytes, position + (unread.length - rest.length), reads, asked⟩)
    | .malformed => .ok (.failure .notUtf8, ⟨[], 0, reads, asked⟩)
    | .incomplete =>
      match reads with
      | [] => .ok (atEnd unread, ⟨[], 0, [], asked + 1⟩)
      | .bytes [] :: reads => .ok (atEnd unread, ⟨[], 0, reads, asked + 1⟩)
      | .bytes bs :: reads => nextFrom (unread ++ bs) 0 (asked + 1) reads
      | .failure e :: reads =>
        if e.kind = .interrupted then nextFrom unread 0 (asked + 1) reads
        else .ok (.failure e, ⟨unread, 0, reads, asked + 1⟩)

/-- The next answer of the source, and the decoder behind it. -/
def next (d : Decoder) : Except Fault (Poll ReadError × Decoder) :=
  nextFrom d.bytes d.position d.asked d.reads

/-- The answers that are still to come. -/
def polls (d : Decoder) : List (Poll ReadError) := Reader.polls (d.bytes.drop d.position) d.reads

/-- The position does not leave the bytes. -/
def InRange (d : Decoder) : Prop := d.position ≤ d.bytes.length

/-- The bytes and the reads that are left. -/
def left (d : Decoder) : Nat := d.bytes.length - d.position + weight d.reads

/-- What was asked for and what is left.  Every character takes away from it, and only asking for
more than there is adds to it. -/
def cost (d : Decoder) : Nat := d.asked + d.left

/-- A decoder gives the next answer of its source.  Behind the reads that are left, that is the end
of the input, again and again. -/
inductive Answers (d : Decoder) : Poll ReadError → Decoder → Prop
  | char {c : Char} {d' : Decoder} : d.polls = .char c :: d'.polls → d'.InRange →
      d'.left < d.left → d'.cost < d.cost → Answers d (.char c) d'
  | endOfInput {d' : Decoder} : d.polls = [] ∧ d'.polls = [] ∨ d.polls = .endOfInput :: d'.polls →
      d'.InRange → d'.left ≤ d.left → d'.cost ≤ d.cost + 1 → Answers d .endOfInput d'
  | failure {e : ReadError} {d' : Decoder} : d.polls = [.failure e] →
      d'.left ≤ d.left → d'.cost ≤ d.cost + 1 → Answers d (.failure e) d'

/-- The answers of a decoder that has read once more are answers of the one before. -/
theorem Answers.of_reread {d d₁ d' : Decoder} {poll : Poll ReadError} (h : Answers d₁ poll d')
    (hpolls : d₁.polls = d.polls) (hleft : d₁.left < d.left) (hasked : d₁.asked = d.asked + 1) :
    Answers d poll d' := by
  have hcost : d₁.cost ≤ d.cost := by
    rw [cost, cost]
    omega
  cases h with
  | char hchar hrange hless hcost' =>
    exact .char (hpolls ▸ hchar) hrange (Nat.lt_trans hless hleft)
      (Nat.lt_of_lt_of_le hcost' hcost)
  | endOfInput hend hrange hle hcost' =>
    exact .endOfInput (hpolls ▸ hend) hrange (Nat.le_trans hle (Nat.le_of_lt hleft))
      (Nat.le_trans hcost' (Nat.add_le_add_right hcost 1))
  | failure hfailure hle hcost' =>
    exact .failure (hpolls ▸ hfailure) (Nat.le_trans hle (Nat.le_of_lt hleft))
      (Nat.le_trans hcost' (Nat.add_le_add_right hcost 1))

section

variable {bytes : List UInt8} {position : Nat} (asked : Nat)

/-- A character in the buffer is the next answer. -/
theorem answers_char {c : Char} {rest : List UInt8} (hposition : position ≤ bytes.length)
    (hfront : Text.Utf8.front (bytes.drop position) = .char c rest) (reads : List Read) :
    Answers ⟨bytes, position, reads, asked⟩ (.char c)
      ⟨bytes, position + ((bytes.drop position).length - rest.length), reads, asked⟩ := by
  obtain ⟨w, hw⟩ := Text.Utf8.suffix_of_front hfront
  have hdrop : bytes.drop (position + ((bytes.drop position).length - rest.length)) = rest := by
    rw [← List.drop_drop, ← hw, List.length_append, Nat.add_sub_cancel, List.drop_left]
  have hless := Text.Utf8.length_front hfront
  obtain ⟨more, hmore⟩ := exists_polls_eq_pollsWith reads
  rw [List.length_drop] at hless
  constructor
  · rw [polls, polls, hmore, hmore, hdrop]
    exact pollsWith_of_char more hfront
  · simp only [InRange, List.length_drop]
    omega
  · simp only [left, List.length_drop]
    omega
  · simp only [cost, left, List.length_drop]
    omega

/-- Malformed bytes in the buffer are the next answer, and the buffer is given up. -/
theorem answers_malformed (hfront : Text.Utf8.front (bytes.drop position) = .malformed)
    (reads : List Read) :
    Answers ⟨bytes, position, reads, asked⟩ (.failure .notUtf8) ⟨[], 0, reads, asked⟩ := by
  obtain ⟨more, hmore⟩ := exists_polls_eq_pollsWith reads
  constructor
  · rw [polls, hmore]
    exact pollsWith_of_malformed more hfront
  · simp only [left, List.length_nil]
    omega
  · simp only [cost, left, List.length_nil]
    omega

/-- At an end of the input, whether there are reads behind it or not. -/
theorem answers_atEnd {reads reads' : List Read} (hweight : weight reads' ≤ weight reads)
    (hpolls : Reader.polls (bytes.drop position) reads =
        (if (bytes.drop position).isEmpty then [] else [.failure .notUtf8]) ∧
        Reader.polls [] reads' = [] ∨
      Reader.polls (bytes.drop position) reads =
        if (bytes.drop position).isEmpty then .endOfInput :: Reader.polls [] reads'
        else [.failure .notUtf8]) :
    Answers ⟨bytes, position, reads, asked⟩ (atEnd (bytes.drop position))
      ⟨[], 0, reads', asked + 1⟩ := by
  have hleft : left ⟨[], 0, reads', asked + 1⟩ ≤ left ⟨bytes, position, reads, asked⟩ := by
    simp only [left, List.length_nil]
    omega
  have hcost : cost ⟨[], 0, reads', asked + 1⟩ ≤ cost ⟨bytes, position, reads, asked⟩ + 1 := by
    simp only [cost]
    omega
  rw [atEnd]
  cases hunread : (bytes.drop position).isEmpty with
  | true =>
    rw [hunread] at hpolls
    exact .endOfInput hpolls (Nat.le_refl 0) hleft hcost
  | false =>
    rw [hunread] at hpolls
    exact .failure (hpolls.elim And.left id) hleft hcost

/-- A decoder whose position is in range gives an answer without leaving its bytes. -/
theorem nextFrom_answers (hposition : position ≤ bytes.length) (reads : List Read) :
    ∃ poll d', nextFrom bytes position asked reads = .ok (poll, d') ∧
      Answers ⟨bytes, position, reads, asked⟩ poll d' := by
  fun_induction nextFrom bytes position asked reads with
  | case1 reads bytes position asked hlt => exact absurd hposition (Nat.not_le.mpr hlt)
  | case2 reads bytes position asked _ unread c rest hfront =>
    exact ⟨_, _, rfl, answers_char asked hposition hfront reads⟩
  | case3 reads bytes position asked _ unread hfront =>
    exact ⟨_, _, rfl, answers_malformed asked hfront reads⟩
  | case4 bytes position asked _ unread hfront =>
    refine ⟨_, _, rfl, answers_atEnd asked (Nat.le_refl _) (.inl ⟨?_, ?_⟩)⟩
    · exact pollsWith_of_incomplete _ hfront
    · exact pollsWith_of_incomplete _ rfl
  | case5 bytes position asked _ unread hfront reads =>
    refine ⟨_, _, rfl, answers_atEnd asked (Nat.le_add_left ..) (.inr ?_)⟩
    exact pollsWith_of_incomplete _ hfront
  | case6 bytes position asked _ unread hfront bs reads hbs ih =>
    obtain ⟨poll, d', hnext, hanswers⟩ := ih (Nat.zero_le _)
    refine ⟨poll, d', hnext, hanswers.of_reread ?_ ?_ rfl⟩
    · exact (polls_bytes hbs _ reads).symm
    · simp only [left, weight, unread, List.length_append, List.length_drop]
      omega
  | case7 bytes position asked _ unread hfront e reads he ih =>
    obtain ⟨poll, d', hnext, hanswers⟩ := ih (Nat.zero_le _)
    refine ⟨poll, d', hnext, hanswers.of_reread ?_ ?_ rfl⟩
    · exact (polls_interrupted he _ reads).symm
    · simp only [left, weight, unread, List.length_drop]
      omega
  | case8 bytes position asked _ unread hfront e reads he =>
    refine ⟨_, _, rfl, .failure ?_ ?_ ?_⟩
    · rw [polls, Reader.polls, pollsWith_of_incomplete _ hfront, if_neg he]
    · simp only [left, weight, unread, List.length_drop]
      omega
    · simp only [cost, left, weight, unread, List.length_drop]
      omega

end

/-- A decoder in range answers, and never slices beyond its buffer. -/
theorem InRange.next {d : Decoder} (h : d.InRange) :
    ∃ poll d', d.next = .ok (poll, d') ∧ d.Answers poll d' :=
  nextFrom_answers d.asked h d.reads

/-- Whatever is answered, a character was there before. -/
theorem left_next {d d' : Decoder} {poll : Poll ReadError} (h : d.next = .ok (poll, d')) :
    poll.char?.toList.length + d'.left ≤ d.left := by
  by_cases hrange : d.InRange
  · obtain ⟨_, _, hnext, hanswers⟩ := hrange.next
    cases h.symm.trans hnext
    cases hanswers with
    | char _ _ hless _ => exact Nat.add_comm .. ▸ hless
    | endOfInput _ _ hle _ => exact (Nat.zero_add _).symm ▸ hle
    | failure _ hle _ => exact (Nat.zero_add _).symm ▸ hle
  · rw [Decoder.next, nextFrom, if_pos (Nat.lt_of_not_le hrange)] at h
    cases h

theorem inRange_ofReads (reads : List Read) : (ofReads reads).InRange := Nat.le_refl 0

theorem polls_ofReads (reads : List Read) : (ofReads reads).polls = Reader.polls [] reads := rfl

theorem cost_ofReads (reads : List Read) : (ofReads reads).cost = weight reads := by
  rw [cost, left]
  exact (Nat.zero_add _).trans (Nat.zero_add _)

end Decoder

end Reader

end RegexScan

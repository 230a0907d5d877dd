import RegexScan.Proofs.Text.Utf8
import RegexScan.Reader.Basic

/-!
# Where reads are split does not matter

The bytes of a read that is not empty might as well have been there from the beginning, because
decoding goes on behind what was left over.  So a source over a reader answers with the same
characters however the reader hands out its bytes, and through a buffer of any size.
-/

namespace RegexScan.Reader

open Text.Utf8

/-! ## Decoding step by step -/

section

variable {pending rest : List UInt8} {c : Char} (more : List UInt8 → List (Poll ReadError))

theorem pollsWith_of_char (h : front pending = .char c rest) :
    pollsWith pending more = .char c :: pollsWith rest more := by
  rw [pollsWith, decode_of_char h]
  rfl

theorem pollsWith_of_incomplete (h : front pending = .incomplete) :
    pollsWith pending more = more pending := by
  rw [pollsWith, decode_of_incomplete h]
  rfl

theorem pollsWith_of_malformed (h : front pending = .malformed) :
    pollsWith pending more = [.failure .notUtf8] := by
  rw [pollsWith, decode_of_malformed h]
  rfl

/-- Bytes that come later are decoded as if they had been there before. -/
theorem pollsWith_append (pending bs : List UInt8) :
    pollsWith pending (fun rest ↦ pollsWith (rest ++ bs) more) =
      pollsWith (pending ++ bs) more := by
  induction pending using front_induction with
  | char pending c rest h ih =>
    have happend := front_append (by rw [h]; nofun) bs
    rw [h] at happend
    rw [pollsWith_of_char _ h, pollsWith_of_char _ happend, ih]
  | incomplete pending h => rw [pollsWith_of_incomplete _ h]
  | malformed pending h =>
    have happend := front_append (by rw [h]; nofun) bs
    rw [h] at happend
    rw [pollsWith_of_malformed _ h, pollsWith_of_malformed _ happend]

/-- The encoding of a text is decoded to the text, whatever comes behind. -/
theorem pollsWith_encode_append (cs : List Char) (rest : List UInt8) :
    pollsWith (cs.flatMap String.utf8EncodeChar ++ rest) more =
      cs.map .char ++ pollsWith rest more := by
  induction cs with
  | nil => rfl
  | cons c cs ih =>
    rw [List.flatMap_cons, List.append_assoc, pollsWith_of_char _ (front_utf8EncodeChar c _), ih]
    rfl

/-- The bytes of a text poll as its characters. -/
theorem pollsWith_flatMap_utf8EncodeChar (cs : List Char) :
    pollsWith (cs.flatMap String.utf8EncodeChar) more = cs.map .char ++ more [] := by
  have happend := pollsWith_encode_append more cs []
  rw [List.append_nil] at happend
  exact happend.trans (congrArg _ (pollsWith_of_incomplete more rfl))

end

/-! ## Reads that are split otherwise -/

section

variable {bs : List UInt8} {reads : List Read} {e : ReadError}

/-- Whatever comes next, what is pending is decoded first. -/
theorem exists_polls_eq_pollsWith (reads : List Read) :
    ∃ more, ∀ pending, polls pending reads = pollsWith pending more := by
  match reads with
  | [] => exact ⟨_, fun _ ↦ rfl⟩
  | .bytes [] :: _ => exact ⟨_, fun _ ↦ rfl⟩
  | .bytes (_ :: _) :: _ => exact ⟨_, fun _ ↦ rfl⟩
  | .failure _ :: _ => exact ⟨_, fun _ ↦ rfl⟩

/-- More bytes behind those that are pending are decoded with them. -/
theorem pollsWith_polls (pending bs : List UInt8) (reads : List Read) :
    pollsWith pending (fun rest ↦ polls (rest ++ bs) reads) = polls (pending ++ bs) reads := by
  obtain ⟨more, hmore⟩ := exists_polls_eq_pollsWith reads
  simp only [hmore]
  exact pollsWith_append more pending bs

/-- Bytes that are read are added to those that are pending. -/
theorem polls_bytes (hbs : bs ≠ []) (pending : List UInt8) (reads : List Read) :
    polls pending (.bytes bs :: reads) = polls (pending ++ bs) reads := by
  rw [polls, pollsWith_polls]
  exact hbs

/-- An interrupted read changes nothing. -/
theorem polls_interrupted (he : e.kind = .interrupted) (pending : List UInt8)
    (reads : List Read) : polls pending (.failure e :: reads) = polls pending reads := by
  have hpolls := pollsWith_polls pending [] reads
  simp only [List.append_nil] at hpolls
  simp only [polls, if_pos he, hpolls]

/-- The reads are not empty, hold some bytes between them, and may be interrupted. -/
inductive Serves : List Read → List UInt8 → Prop
  | done : Serves [] []
  | bytes {bs rest : List UInt8} {reads : List Read} :
      bs ≠ [] → Serves reads rest → Serves (.bytes bs :: reads) (bs ++ rest)
  | interrupted {e : ReadError} {bytes : List UInt8} {reads : List Read} :
      e.kind = .interrupted → Serves reads bytes → Serves (.failure e :: reads) bytes

/-- Reads that serve bytes poll as the bytes do, whatever comes later. -/
theorem Serves.polls_append {bytes : List UInt8} (h : Serves reads bytes) (pending : List UInt8)
    (later : List Read) : polls pending (reads ++ later) = polls (pending ++ bytes) later := by
  induction h generalizing pending with
  | done => rw [List.nil_append, List.append_nil]
  | bytes hbs _ ih => rw [List.cons_append, polls_bytes hbs, ih, List.append_assoc]
  | interrupted he _ ih => rw [List.cons_append, polls_interrupted he, ih]

theorem toUTF8_toList (text : String) :
    text.toUTF8.data.toList = text.toList.flatMap String.utf8EncodeChar := by
  rw [String.toUTF8, ← String.utf8Encode_toList, List.utf8Encode, List.toList_data_toByteArray]

/-- However the bytes of a text are read, the source holds the text. -/
theorem Serves.polls_text {text : String} (h : Serves reads text.toUTF8.data.toList) :
    polls [] reads = text.toList.map .char := by
  have hpolls := h.polls_append [] []
  rw [List.append_nil, List.nil_append, toUTF8_toList, polls,
    pollsWith_flatMap_utf8EncodeChar] at hpolls
  exact hpolls.trans (List.append_nil _)

/-- A read that fails and is not repeated comes behind the text that was read before. -/
theorem Serves.polls_failure {text : String} (h : Serves reads text.toUTF8.data.toList)
    (he : e.kind ≠ .interrupted) (later : List Read) :
    polls [] (reads ++ .failure e :: later) = text.toList.map .char ++ [.failure e] := by
  rw [h.polls_append, List.nil_append, toUTF8_toList, polls, pollsWith_flatMap_utf8EncodeChar,
    if_neg he]

end

/-! ## Reading through a buffer -/

/-- A read that does not fit into a buffer is split. -/
def pieces (capacity : Nat) (bs : List UInt8) : List (List UInt8) :=
  if 0 < capacity ∧ capacity < bs.length then
    bs.take capacity :: pieces capacity (bs.drop capacity)
  else [bs]
termination_by bs.length
decreasing_by rw [List.length_drop]; omega

/-- The reads of a reader through a buffer. -/
def buffered (capacity : Nat) : List Read → List Read
  | [] => []
  | .bytes bs :: reads => (pieces capacity bs).map .bytes ++ buffered capacity reads
  | .failure e :: reads => .failure e :: buffered capacity reads

section

variable (capacity : Nat)

/-- Bytes read in pieces poll as they do in one. -/
theorem polls_pieces {bs : List UInt8} (hbs : bs ≠ []) (pending : List UInt8)
    (reads : List Read) :
    polls pending ((pieces capacity bs).map .bytes ++ reads) = polls (pending ++ bs) reads := by
  induction bs using pieces.induct capacity generalizing pending with
  | case1 bs h ih =>
    have htake : bs.take capacity ≠ [] := by
      rw [Ne, List.take_eq_nil_iff, not_or]
      exact ⟨Nat.ne_of_gt h.1, hbs⟩
    have hdrop : bs.drop capacity ≠ [] := by
      rw [Ne, List.drop_eq_nil_iff]
      exact Nat.not_le.mpr h.2
    rw [pieces, if_pos h, List.map_cons, List.cons_append, polls_bytes htake, ih hdrop,
      List.append_assoc, List.take_append_drop]
  | case2 bs h =>
    rw [pieces, if_neg h]
    exact polls_bytes hbs pending reads

/-- A buffer never shows: not even in front of an end of the input or a failure. -/
theorem polls_buffered (pending : List UInt8) (reads : List Read) :
    polls pending (buffered capacity reads) = polls pending reads := by
  induction reads using buffered.induct generalizing pending with
  | case1 => rfl
  | case2 bs reads ih =>
    rw [buffered]
    cases bs with
    | nil =>
      have hpieces : pieces capacity [] = [[]] := by rw [pieces, if_neg (by simp)]
      rw [hpieces]
      simp only [List.map_cons, List.map_nil, List.cons_append, List.nil_append, polls, ih]
    | cons b bs =>
      rw [polls_pieces capacity (List.cons_ne_nil b bs), ih, polls_bytes (List.cons_ne_nil b bs)]
  | case3 e reads ih => simp only [buffered, polls, ih]

end

end RegexScan.Reader

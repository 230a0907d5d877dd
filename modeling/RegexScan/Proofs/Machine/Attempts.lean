import RegexScan.Proofs.Machine.Scan

/-!
# From attempt to attempt

Behind the characters of a text there may be nothing, or a source fails there, or it ends and has
more later.  An attempt does not notice unless it takes every character that is left.  Up to the
first attempt that does, a scan finds what it finds in the text.
-/

namespace RegexScan.Scan

variable {ε : Type} {dfa : Dfa Nat} {cs : List Char} {tail : List (Poll ε)}

/-! ## One attempt -/

/-- What halts an attempt that takes so many characters and then comes to something else. -/
def haltAt (consumed : Nat) : List (Poll ε) → Halt ε
  | .failure e :: _ => .failed e
  | _ => .ended consumed

theorem front_append (htail : front tail = []) (cs : List Char) :
    front (cs.map Poll.char ++ tail) = cs := by
  induction cs with
  | nil => exact htail
  | cons c cs ih => exact congrArg (c :: ·) ih

/-- An attempt finds the longest accepted prefix of a text in front of an end. -/
theorem isLongest_attempt_append (htail : front tail = []) (dfa : Dfa Nat) (cs : List Char) :
    IsLongest dfa cs (attempt dfa (cs.map .char ++ tail)).longest := by
  have h := isLongest_attempt dfa (cs.map .char ++ tail)
  rwa [front_append htail] at h

/-- Where an attempt stops: at the end of the text if the automaton gets there, and else
at a character. -/
theorem halt_follow_append (htail : front tail = []) (dfa : Dfa Nat) (s n : Nat)
    (longest : Option (Nat × Nat)) (cs : List Char) :
    (follow dfa s n longest (cs.map .char ++ tail)).halt =
      if (dfa.steps s cs).isSome then haltAt (n + cs.length) tail else .stuck := by
  induction cs generalizing s n longest with
  | nil =>
    cases tail with
    | nil => rfl
    | cons poll tail =>
      cases poll with
      | char c => cases htail
      | endOfInput => rfl
      | failure e => rfl
  | cons c cs ih =>
    rw [List.map_cons, List.cons_append, follow, Dfa.steps, List.length_cons,
      Nat.add_comm cs.length, ← Nat.add_assoc]
    cases dfa.step s c with
    | none => rfl
    | some next => exact ih next (n + 1) _

/-- An attempt comes to what is behind the text if it takes all of it, and else it gets stuck. -/
theorem halt_attempt_append (htail : front tail = []) (dfa : Dfa Nat) (cs : List Char) :
    (attempt dfa (cs.map .char ++ tail)).halt =
      if (dfa.steps dfa.start cs).isSome then haltAt cs.length tail else .stuck := by
  have h := halt_follow_append htail dfa dfa.start 0 ((dfa.accepting? dfa.start).map (0, ·)) cs
  rwa [Nat.zero_add] at h

/-- Every text has a longest accepted prefix, or none is accepted. -/
theorem exists_isLongest (dfa : Dfa Nat) (cs : List Char) :
    ∃ longest, IsLongest dfa cs longest :=
  ⟨_, isLongest_attempt_append (rfl : front ([] : List (Poll Empty)) = []) dfa cs⟩

/-- What an attempt finds is a piece of the text. -/
theorem found?_append (a : Attempt ε) (offset : Nat)
    (h : ∀ longest, a.longest = some longest → longest.1 ≤ cs.length) :
    a.found? offset (cs.map .char ++ tail) =
      a.longest.map fun longest ↦ ⟨String.ofList (cs.take longest.1), offset, longest.2⟩ := by
  rw [Attempt.found?]
  cases hlongest : a.longest with
  | none => rfl
  | some longest =>
    have hlength : longest.1 ≤ (cs.map (@Poll.char ε)).length := by
      rw [List.length_map]
      exact h longest hlongest
    have hchars : ((cs.take longest.1).map (@Poll.char ε)).filterMap (·.char?) =
        cs.take longest.1 := by
      rw [List.filterMap_map]
      exact List.filterMap_some
    simp only [Option.map_some, List.take_append_of_le_length hlength, ← List.map_take, hchars]

/-- How far an attempt that accepts so much is from the next one. -/
def stride : Option (Nat × Nat) → Nat
  | some (length, _) => max length 1
  | none => 1

theorem stride_pos (longest : Option (Nat × Nat)) : 0 < stride longest := by
  unfold stride
  split <;> omega

theorem Attempt.advance_eq (a : Attempt ε) : a.advance = stride a.longest := rfl

/-- The match that an attempt at a position of a text finds. -/
def matchAt (cs : List Char) (start : Nat) (longest : Option (Nat × Nat)) : Option Match :=
  longest.map fun (length, pattern) ↦ ⟨String.ofList ((cs.drop start).take length), start, pattern⟩

theorem drop_ne_nil {cs : List Char} {start : Nat} (h : start < cs.length) :
    cs.drop start ≠ [] := by
  rw [Ne, List.drop_eq_nil_iff]
  exact Nat.not_le.mpr h

theorem stride_le {longest : Option (Nat × Nat)} {length : Nat}
    (h : ∀ found, longest = some found → found.1 ≤ length) (hpos : 0 < length) :
    stride longest ≤ length := by
  cases longest with
  | none => exact hpos
  | some found => exact Nat.max_le.mpr ⟨h found rfl, hpos⟩

/-- What is behind the text stays there, as long as an attempt does not come to it. -/
theorem remaining_append_of_stuck (htail : front tail = []) (hcs : cs ≠ [])
    (h : (attempt dfa (cs.map .char ++ tail)).halt = .stuck) :
    (attempt dfa (cs.map .char ++ tail)).remaining (cs.map .char ++ tail) =
      (cs.drop (attempt dfa (cs.map .char ++ tail)).advance).map .char ++ tail := by
  have hle := stride_le (fun _ ↦ (isLongest_attempt_append htail dfa cs).length_le)
    (List.length_pos_of_ne_nil hcs)
  rw [Attempt.remaining, h, List.map_drop]
  exact List.drop_append_of_le_length (by rwa [List.length_map])

theorem eraseIdx_append (cs : List Char) (tail : List (Poll ε)) :
    (cs.map Poll.char ++ tail).eraseIdx cs.length = cs.map .char ++ tail.tail := by
  rw [List.eraseIdx_append_of_length_le (Nat.le_of_eq (List.length_map _)), List.length_map,
    Nat.sub_self, List.eraseIdx_zero]

/-- An end of the input behind the text is gone when an attempt has met it. -/
theorem remaining_append_of_ended (htail : front tail = []) (hcs : cs ≠ [])
    (h : (attempt dfa (cs.map .char ++ tail)).halt = .ended cs.length) :
    (attempt dfa (cs.map .char ++ tail)).remaining (cs.map .char ++ tail) =
      (cs.drop (attempt dfa (cs.map .char ++ tail)).advance).map .char ++ tail.tail := by
  have hle := stride_le (fun _ ↦ (isLongest_attempt_append htail dfa cs).length_le)
    (List.length_pos_of_ne_nil hcs)
  rw [Attempt.remaining, h, List.map_drop]
  change ((cs.map Poll.char ++ tail).eraseIdx cs.length).drop _ = _
  rw [eraseIdx_append]
  exact List.drop_append_of_le_length (by rwa [List.length_map])

/-! ## The next attempt -/

/-- From a position on, the automaton takes every character that is left. -/
def TakesAll (dfa : Dfa Nat) (cs : List Char) (p : Nat) : Prop :=
  (dfa.steps dfa.start (cs.drop p)).isSome

/-- How a scan goes on when it has come to something behind the characters that are left: not at
all if that is a failure, and as if there had been no end of the input if it is one. -/
def resume (dfa : Dfa Nat) (offset : Nat) (cs : List Char) : List (Poll ε) → Outcome ε
  | .failure e :: _ => ⟨[], .error e⟩
  | tail => outcome dfa offset (cs.map .char ++ tail.tail)

section

variable {start : Nat} {longest : Option (Nat × Nat)}

/-- A scan hands out what the first attempt finds, and then it depends on what has halted the
attempt. -/
theorem outcome_append (htail : front tail = []) (hlt : start < cs.length)
    (h : IsLongest dfa (cs.drop start) longest) :
    outcome dfa start ((cs.drop start).map .char ++ tail) =
      Outcome.after
        (match (attempt dfa ((cs.drop start).map .char ++ tail)).halt with
          | .failed e => ⟨[], .error e⟩
          | _ => outcome dfa (start + stride longest)
            ((attempt dfa ((cs.drop start).map .char ++ tail)).remaining
              ((cs.drop start).map .char ++ tail)))
        (matchAt cs start longest) := by
  have hattempt := isLongest_attempt_append htail dfa (cs.drop start)
  rw [h.unique hattempt, matchAt, ← found?_append _ start fun _ ↦ hattempt.length_le]
  obtain ⟨c, rest, hdrop⟩ := List.exists_cons_of_ne_nil (drop_ne_nil hlt)
  rw [hdrop, List.map_cons, List.cons_append, outcome]
  rfl

/-- If the attempt does not take all that is left, the scan goes on as in the text. -/
theorem outcome_append_of_not_takesAll (htail : front tail = []) (hlt : start < cs.length)
    (h : IsLongest dfa (cs.drop start) longest) (hall : ¬TakesAll dfa cs start) :
    outcome dfa start ((cs.drop start).map .char ++ tail) =
      (outcome dfa (start + stride longest)
        ((cs.drop (start + stride longest)).map .char ++ tail)).after
          (matchAt cs start longest) := by
  have hhalt := (halt_attempt_append htail dfa (cs.drop start)).trans (if_neg hall)
  rw [outcome_append htail hlt h, hhalt, remaining_append_of_stuck htail (drop_ne_nil hlt) hhalt,
    Attempt.advance_eq, ← h.unique (isLongest_attempt_append htail dfa (cs.drop start)),
    List.drop_drop]

/-- If the attempt takes all that is left, the scan comes to what is behind. -/
theorem outcome_append_of_takesAll (htail : front tail = []) (hlt : start < cs.length)
    (h : IsLongest dfa (cs.drop start) longest) (hall : TakesAll dfa cs start) :
    outcome dfa start ((cs.drop start).map .char ++ tail) =
      (resume dfa (start + stride longest) (cs.drop (start + stride longest)) tail).after
        (matchAt cs start longest) := by
  have hhalt := (halt_attempt_append htail dfa (cs.drop start)).trans (if_pos hall)
  have hremaining := @remaining_append_of_ended _ dfa _ _ htail (drop_ne_nil hlt)
  rw [Attempt.advance_eq, ← h.unique (isLongest_attempt_append htail dfa (cs.drop start)),
    List.drop_drop] at hremaining
  have hended := fun hhalt ↦ congrArg
    (fun input ↦ (outcome dfa (start + stride longest) input).after (matchAt cs start longest))
    (hremaining hhalt)
  rw [outcome_append htail hlt h, hhalt]
  cases tail with
  | nil => exact hended hhalt
  | cons poll tail =>
    cases poll with
    | char c => cases htail
    | endOfInput => exact hended hhalt
    | failure e => rfl

end

/-! ## Scans of texts -/

section

variable {start : Nat} {longest : Option (Nat × Nat)}

theorem outcome_nil (dfa : Dfa Nat) (offset : Nat) :
    outcome dfa offset ([] : List (Poll ε)) = ⟨[], .ok ()⟩ := by
  rw [outcome]

/-- A scan of a text takes the longest accepted prefix in front, if there is one, and goes on
behind it. -/
theorem outcome_text (ε : Type) (hlt : start < cs.length)
    (h : IsLongest dfa (cs.drop start) longest) :
    outcome dfa start ((cs.drop start).map (@Poll.char ε)) =
      (outcome dfa (start + stride longest)
        ((cs.drop (start + stride longest)).map .char)).after (matchAt cs start longest) := by
  have htail : front ([] : List (Poll ε)) = [] := rfl
  by_cases hall : TakesAll dfa cs start
  · have houtcome := outcome_append_of_takesAll htail hlt h hall
    rwa [List.append_nil, resume, List.tail_nil, List.append_nil] at houtcome
    nofun
  · have houtcome := outcome_append_of_not_takesAll htail hlt h hall
    rwa [List.append_nil, List.append_nil] at houtcome

/-- A scan goes from attempt to attempt, up to the end of the text. -/
@[elab_as_elim]
theorem scan_induction {motive : Nat → Prop} (dfa : Dfa Nat) (cs : List Char)
    (behind : ∀ start, cs.length ≤ start → motive start)
    (attempt : ∀ start longest, start < cs.length → IsLongest dfa (cs.drop start) longest →
      motive (start + stride longest) → motive start) (start : Nat) : motive start := by
  induction hn : cs.length - start using Nat.strongRecOn generalizing start with
  | ind n ih =>
    rcases Nat.lt_or_ge start cs.length with hlt | hge
    · obtain ⟨longest, hlongest⟩ := exists_isLongest dfa (cs.drop start)
      have hpos := stride_pos longest
      exact attempt start longest hlt hlongest (ih _ (by omega) _ rfl)
    · exact behind start hge

/-- What is found in a text does not depend on the failures that there might have been. -/
theorem outcome_text_eq (ε ε' : Type) (dfa : Dfa Nat) (cs : List Char) (start : Nat) :
    outcome dfa start ((cs.drop start).map (@Poll.char ε)) =
      ⟨(outcome dfa start ((cs.drop start).map (@Poll.char ε'))).found, .ok ()⟩ := by
  induction start using scan_induction dfa cs with
  | behind start hge =>
    rw [List.drop_eq_nil_of_le hge, List.map_nil, List.map_nil, outcome_nil, outcome_nil]
  | attempt start longest hlt h ih =>
    rw [outcome_text ε hlt h, outcome_text ε' hlt h, ih]
    rfl

variable {found : Match}

/-- A scan finds nothing in front of the place it begins at. -/
theorem le_offset_of_mem_found_outcome (cs : List Char) (start : Nat)
    (h : found ∈ (outcome dfa start ((cs.drop start).map (@Poll.char ε))).found) :
    start ≤ found.offset := by
  induction start using scan_induction dfa cs with
  | behind start hge =>
    rw [List.drop_eq_nil_of_le hge, List.map_nil, outcome_nil] at h
    exact absurd h List.not_mem_nil
  | attempt start longest hlt hlongest ih =>
    rw [outcome_text ε hlt hlongest] at h
    rcases List.mem_append.mp h with h | h
    · obtain ⟨_, rfl, rfl⟩ := Option.map_eq_some_iff.mp (Option.mem_toList.mp h)
      exact Nat.le_refl start
    · exact Nat.le_trans (Nat.le_add_right ..) (ih h)

/-- Every match stands where it says, and the automaton accepts its text with its pattern. -/
theorem of_mem_found_outcome (cs : List Char) (start : Nat)
    (h : found ∈ (outcome dfa start ((cs.drop start).map (@Poll.char ε))).found) :
    found.offset ≤ cs.length ∧ found.text.toList <+: cs.drop found.offset ∧
      dfa.verdict found.text.toList = some found.pattern := by
  induction start using scan_induction dfa cs with
  | behind start hge =>
    rw [List.drop_eq_nil_of_le hge, List.map_nil, outcome_nil] at h
    exact absurd h List.not_mem_nil
  | attempt start longest hlt hlongest ih =>
    rw [outcome_text ε hlt hlongest] at h
    rcases List.mem_append.mp h with h | h
    · obtain ⟨⟨n, pattern⟩, rfl, rfl⟩ := Option.map_eq_some_iff.mp (Option.mem_toList.mp h)
      obtain ⟨-, hverdict, -⟩ := hlongest
      rw [String.toList_ofList]
      exact ⟨Nat.le_of_lt hlt, List.take_prefix .., hverdict⟩
    · exact ih h

end

/-! ## Up to the first attempt that takes all -/

/-- A scan of a text that begins at one position tries to match at another: at the same one, or at
one that it comes to behind what it accepts there. -/
inductive Attempted (dfa : Dfa Nat) (cs : List Char) : Nat → Nat → Prop
  | here {start : Nat} : start < cs.length → Attempted dfa cs start start
  | later {start p : Nat} {longest : Option (Nat × Nat)} : start < cs.length →
      IsLongest dfa (cs.drop start) longest →
      Attempted dfa cs (start + stride longest) p → Attempted dfa cs start p

/-- A scan attempts nothing in front of the place it begins at. -/
theorem Attempted.le {start p : Nat} (h : Attempted dfa cs start p) : start ≤ p := by
  induction h with
  | here => exact Nat.le_refl _
  | later _ _ _ ih => exact Nat.le_trans (Nat.le_add_right ..) ih

theorem Attempted.lt {start p : Nat} (h : Attempted dfa cs start p) : p < cs.length := by
  induction h with
  | here hlt => exact hlt
  | later _ _ _ ih => exact ih

section

variable {start p : Nat} {longest : Option (Nat × Nat)} {result : Except ε Unit}

theorem filter_matchAt (cs : List Char) (longest : Option (Nat × Nat)) (hle : start ≤ p) :
    (matchAt cs start longest).toList.filter (·.offset ≤ p) =
      (matchAt cs start longest).toList := by
  rw [List.filter_eq_self]
  intro found hfound
  obtain ⟨_, rfl, rfl⟩ := Option.map_eq_some_iff.mp (Option.mem_toList.mp hfound)
  exact decide_eq_true hle

theorem filter_found_outcome_of_lt (ε' : Type) (dfa : Dfa Nat) (cs : List Char) (hlt : p < start) :
    (outcome dfa start ((cs.drop start).map (@Poll.char ε'))).found.filter (·.offset ≤ p) = [] := by
  rw [List.filter_eq_nil_iff]
  intro found hfound
  rw [decide_eq_true_iff, Nat.not_le]
  exact Nat.lt_of_lt_of_le hlt (le_offset_of_mem_found_outcome cs start hfound)

/-- If no attempt takes all that is left, the scan finds what is in the text, and ends with what is
behind. -/
theorem outcome_append_of_none (ε' : Type) (htail : front tail = [])
    (hend : ∀ offset, outcome dfa offset tail = ⟨[], result⟩)
    (hnone : ∀ p, Attempted dfa cs start p → ¬TakesAll dfa cs p) :
    outcome dfa start ((cs.drop start).map .char ++ tail) =
      ⟨(outcome dfa start ((cs.drop start).map (@Poll.char ε'))).found, result⟩ := by
  induction start using scan_induction dfa cs with
  | behind start hge =>
    rw [List.drop_eq_nil_of_le hge, List.map_nil, List.map_nil, outcome_nil]
    exact hend start
  | attempt start longest hlt h ih =>
    rw [outcome_append_of_not_takesAll htail hlt h (hnone start (.here hlt)),
      ih fun p hp ↦ hnone p (.later hlt h hp), outcome_text ε' hlt h]
    rfl

/-- Up to the first attempt that takes all that is left, the scan finds what is in the text. -/
theorem outcome_append_of_first (ε' : Type) (htail : front tail = [])
    (hp : Attempted dfa cs start p) (hall : TakesAll dfa cs p)
    (hfirst : ∀ q, Attempted dfa cs start q → TakesAll dfa cs q → p ≤ q)
    (h : IsLongest dfa (cs.drop p) longest) :
    outcome dfa start ((cs.drop start).map .char ++ tail) =
      ⟨(outcome dfa start ((cs.drop start).map (@Poll.char ε'))).found.filter (·.offset ≤ p) ++
        (resume dfa (p + stride longest) (cs.drop (p + stride longest)) tail).found,
        (resume dfa (p + stride longest) (cs.drop (p + stride longest)) tail).result⟩ := by
  -- up to `p` both scans make the same attempts, and behind it only the one of the text goes on
  induction hp with
  | @here start hlt =>
    have hbehind : start < start + stride longest := Nat.lt_add_of_pos_right (stride_pos longest)
    have hlost := filter_found_outcome_of_lt ε' dfa cs hbehind
    rw [outcome_append_of_takesAll htail hlt h hall, outcome_text ε' hlt h, Outcome.after,
      Outcome.after, List.filter_append, filter_matchAt cs longest (Nat.le_refl start), hlost,
      List.append_nil]
  | @later start p longest' hlt h' hp ih =>
    have hbehind : start < p :=
      Nat.lt_of_lt_of_le (Nat.lt_add_of_pos_right (stride_pos longest')) hp.le
    have hnot : ¬TakesAll dfa cs start := fun hstart ↦
      absurd (hfirst start (.here hlt) hstart) (Nat.not_le.mpr hbehind)
    have hlater := ih hall (fun q hq ↦ hfirst q (.later hlt h' hq)) h
    rw [outcome_append_of_not_takesAll htail hlt h' hnot, hlater, outcome_text ε' hlt h',
      Outcome.after, Outcome.after, List.filter_append,
      filter_matchAt cs longest' (Nat.le_of_lt hbehind), List.append_assoc]

end

end RegexScan.Scan

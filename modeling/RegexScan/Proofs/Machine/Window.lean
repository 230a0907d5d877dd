import RegexScan.Proofs.Effects
import RegexScan.Proofs.Machine.Agreement
import RegexScan.Proofs.Reader.Decoder

/-!
# Scanning through a window

A scan does not have its input as a list.  It keeps the characters from the position of the current
attempt on in a window, takes further ones from a decoder, and looks states up by their numbers.
Here an attempt fails with a fault if anything is out of range.  There is no fault as long as the
states that are reached exist, and then the attempt does what one on the list does.
-/

namespace RegexScan

open Reader (Decoder)

namespace Dfa

/-! ## Looking states up -/

variable (dfa : Dfa Nat) (s : Nat)

/-- Look up a state, which must exist. -/
def stateAt : Except Fault (State Nat) :=
  match dfa.states[s]? with
  | some state => .ok state
  | none => .error .state

/-- The step from a state, which must exist. -/
def stepAt (c : Char) : Except Fault (Option Nat) :=
  (dfa.stateAt s).map fun state ↦ (state.transitions.find? (·.on.contains c)).map (·.target)

/-- The value of a state, which must exist. -/
def acceptingAt : Except Fault (Option Nat) := (dfa.stateAt s).map (·.accepting)

variable {dfa s}

/-- A checked step from an existing state is a step. -/
theorem stepAt_eq (h : s < dfa.size) (c : Char) : dfa.stepAt s c = .ok (dfa.step s c) := by
  rw [stepAt, stateAt, step, transitionsFrom, Array.getElem?_eq_getElem h]
  rfl

theorem acceptingAt_eq (h : s < dfa.size) : dfa.acceptingAt s = .ok (dfa.accepting? s) := by
  rw [acceptingAt, stateAt, accepting?, Array.getElem?_eq_getElem h]
  rfl

/-- Some text leads to the state. -/
def Reached (dfa : Dfa Nat) (s : Nat) : Prop := ∃ v, dfa.steps dfa.start v = some s

theorem reached_start (dfa : Dfa Nat) : dfa.Reached dfa.start := ⟨[], rfl⟩

/-- A step leads from a reached state to a reached one. -/
theorem Reached.step {c : Char} {next : Nat} (h : dfa.Reached s)
    (hstep : dfa.step s c = some next) : dfa.Reached next := by
  obtain ⟨v, hv⟩ := h
  refine ⟨v ++ [c], ?_⟩
  rw [steps_append, hv, Option.bind_some, steps, hstep]
  rfl

/-- The states that texts lead to exist, and accept the numbers of rules. -/
structure Fits (dfa : Dfa Nat) (rules : Nat) : Prop where
  lt_size {s : Nat} : dfa.Reached s → s < dfa.size
  accepting_lt {s pattern : Nat} : dfa.Reached s → dfa.accepting? s = some pattern →
    pattern < rules

/-- Steps from reached states never fault. -/
theorem Fits.stepAt {rules : Nat} (h : dfa.Fits rules) (hs : dfa.Reached s) (c : Char) :
    dfa.stepAt s c = .ok (dfa.step s c) :=
  stepAt_eq (h.lt_size hs) c

theorem Fits.acceptingAt {rules : Nat} (h : dfa.Fits rules) (hs : dfa.Reached s) :
    dfa.acceptingAt s = .ok (dfa.accepting? s) :=
  acceptingAt_eq (h.lt_size hs)

end Dfa

namespace Scan

/-! ## One attempt -/

/-- The next character behind those consumed, out of the window or from the decoder into it. -/
def look (window : List Char) (consumed : Nat) (d : Decoder) :
    Except Fault (Poll ReadError × List Char × Decoder) :=
  if consumed < window.length then
    match window[consumed]? with
    | some c => .ok (.char c, window, d)
    | none => .error .index
  else
    match d.next with
    | .ok (poll, d) => .ok (poll, window ++ poll.char?.toList, d)
    | .error fault => .error fault

section

variable {window window' : List Char} {consumed : Nat} {d d' : Decoder}

/-- A look finds its character in the window, or asks the decoder and puts the answer
behind it. -/
theorem look_cases {poll : Poll ReadError} (h : look window consumed d = .ok (poll, window', d')) :
    consumed < window.length ∧ window' = window ∧ d' = d ∨
      window.length ≤ consumed ∧ d.next = .ok (poll, d') ∧
        window' = window ++ poll.char?.toList := by
  rw [look] at h
  split at h
  · next hlt =>
    split at h <;> cases h
    exact .inl ⟨hlt, rfl, rfl⟩
  · next hge =>
    split at h
    · next hnext =>
      cases h
      exact .inr ⟨Nat.le_of_not_lt hge, hnext, rfl⟩
    · cases h

/-- A look takes no more characters than the window and the decoder have. -/
theorem length_look {poll : Poll ReadError}
    (h : look window consumed d = .ok (poll, window', d')) :
    window'.length + d'.left ≤ window.length + d.left := by
  obtain ⟨-, rfl, rfl⟩ | ⟨-, hnext, rfl⟩ := look_cases h
  · exact Nat.le_refl _
  · rw [List.length_append, Nat.add_assoc]
    exact Nat.add_le_add_left (Decoder.left_next hnext) _

/-- A character that is consumed is out of the way. -/
theorem left_look {c : Char} (h : look window consumed d = .ok (.char c, window', d')) :
    window'.length - (consumed + 1) + d'.left < window.length - consumed + d.left := by
  obtain ⟨hlt, rfl, rfl⟩ | ⟨hle, hnext, rfl⟩ := look_cases h
  · omega
  · have hleft := Decoder.left_next hnext
    rw [Poll.char?, Option.toList_some, List.length_singleton] at hleft
    rw [Poll.char?, Option.toList_some, List.length_append, List.length_singleton]
    omega

end

/-- The window and the decoder after an attempt, the longest accepted text, and the failure that the
attempt ran into, if it did. -/
structure Walk where
  window : List Char
  decoder : Decoder
  longest : Option (Nat × Nat)
  failure : Option ReadError

/-- Follow the automaton from a state reached by `consumed` characters of the window. -/
def walk (dfa : Dfa Nat) (window : List Char) (s consumed : Nat) (longest : Option (Nat × Nat))
    (d : Decoder) : Except Fault Walk :=
  match _h : look window consumed d with
  | .error fault => .error fault
  | .ok (.endOfInput, window, d) => .ok ⟨window, d, longest, none⟩
  | .ok (.failure e, window, d) => .ok ⟨window, d, longest, some e⟩
  | .ok (.char c, window, d) =>
    match dfa.stepAt s c with
    | .error fault => .error fault
    | .ok none => .ok ⟨window, d, longest, none⟩
    | .ok (some next) =>
      match dfa.acceptingAt next with
      | .error fault => .error fault
      | .ok accepting =>
        let longest := match accepting with
          | some pattern => some (consumed + 1, pattern)
          | none => longest
        walk dfa window next (consumed + 1) longest d
termination_by window.length - consumed + d.left
decreasing_by exact left_look _h

/-- A walk takes no more characters than the window and the decoder have. -/
theorem length_walk {dfa : Dfa Nat} {window : List Char} {s consumed : Nat}
    {longest : Option (Nat × Nat)} {d : Decoder} {w : Walk}
    (h : walk dfa window s consumed longest d = .ok w) :
    w.window.length + w.decoder.left ≤ window.length + d.left := by
  fun_induction walk dfa window s consumed longest d with
  | case1 => cases h
  | case2 _ _ _ _ _ _ _ hlook =>
    cases h
    exact length_look hlook
  | case3 _ _ _ _ _ _ _ _ hlook =>
    cases h
    exact length_look hlook
  | case4 => cases h
  | case5 _ _ _ _ _ _ _ _ hlook =>
    cases h
    exact length_look hlook
  | case6 => cases h
  | case7 _ _ _ _ _ _ _ _ hlook _ _ _ _ _ ih => exact Nat.le_trans (ih h) (length_look hlook)

/-! ## An attempt on the window is one on the list -/

section

variable {window : List Char} {consumed : Nat} {d : Decoder}

theorem drop_eq_cons {c : Char} (h : window[consumed]? = some c) (later : List (Poll ReadError)) :
    (window.map Poll.char ++ later).drop consumed =
      .char c :: (window.map Poll.char ++ later).drop (consumed + 1) := by
  obtain ⟨hlt, rfl⟩ := List.getElem?_eq_some_iff.mp h
  have hmap : consumed < (window.map (@Poll.char ReadError)).length := by rwa [List.length_map]
  have hlength : consumed < (window.map Poll.char ++ later).length := by
    rw [List.length_append]
    exact Nat.lt_add_right _ hmap
  rw [List.drop_eq_getElem_cons hlength, List.getElem_append_left hmap, List.getElem_map]

/-- A look at a character is one at the list of what is in the window and what comes later. -/
inductive Looked (window : List Char) (consumed : Nat) (d : Decoder) :
    Except Fault (Poll ReadError × List Char × Decoder) → Prop
  | char {c : Char} {window' : List Char} {d' : Decoder} :
      window'.map .char ++ d'.polls = window.map .char ++ d.polls → window'[consumed]? = some c →
      window.length ≤ window'.length → d'.InRange →
      window'.length + d'.cost ≤ window.length + d.cost →
      Looked window consumed d (.ok (.char c, window', d'))
  | endOfInput {d' : Decoder} : window.length = consumed →
      d.polls = [] ∧ d'.polls = [] ∨ d.polls = .endOfInput :: d'.polls → d'.InRange →
      d'.cost ≤ d.cost + 1 → Looked window consumed d (.ok (.endOfInput, window, d'))
  | failure {e : ReadError} {d' : Decoder} : window.length = consumed → d.polls = [.failure e] →
      d'.cost ≤ d.cost + 1 → Looked window consumed d (.ok (.failure e, window, d'))

/-- A look in range is one at the list. -/
theorem looked_look (hrange : d.InRange) (hconsumed : consumed ≤ window.length) :
    Looked window consumed d (look window consumed d) := by
  rw [look]
  split
  · next hlt =>
    rw [List.getElem?_eq_getElem hlt]
    exact .char rfl (List.getElem?_eq_getElem hlt) (Nat.le_refl _) hrange (Nat.le_refl _)
  · next hge =>
    have hlength : window.length = consumed := Nat.le_antisymm (Nat.le_of_not_lt hge) hconsumed
    obtain ⟨poll, d', hnext, hanswers⟩ := hrange.next
    rw [hnext]
    cases hanswers with
    | @char c d' hpolls hrange' _ hcost =>
      apply Looked.char
      · rw [hpolls, Poll.char?, Option.toList_some, List.map_append, List.append_assoc]
        rfl
      · rw [Poll.char?, Option.toList_some, ← hlength]
        exact List.getElem?_concat_length
      · rw [List.length_append]
        exact Nat.le_add_right ..
      · exact hrange'
      · rw [List.length_append, Nat.add_assoc, Nat.add_comm _ d'.cost]
        exact Nat.add_le_add_left hcost _
    | endOfInput hend hrange' _ hcost =>
      simp only [Poll.char?, Option.toList_none, List.append_nil]
      exact .endOfInput hlength hend hrange' hcost
    | failure hfailure _ hcost =>
      simp only [Poll.char?, Option.toList_none, List.append_nil]
      exact .failure hlength hfailure hcost

/-- Where an attempt leaves the window and the decoder.  What is in the window is the front of the
input, and the decoder stands behind what halted the attempt. -/
inductive Walk.Leaves (w : Walk) (input : List (Poll ReadError)) : Halt ReadError → Prop
  | stuck : w.failure = none → w.decoder.InRange →
      w.window.map .char ++ w.decoder.polls = input → Leaves w input .stuck
  | ended {later : List (Poll ReadError)} : w.failure = none → w.decoder.InRange →
      w.window.map .char ++ later = input → w.decoder.polls = later.tail →
      Leaves w input (.ended w.window.length)
  | failed {e : ReadError} : w.failure = some e →
      w.window.map .char ++ [.failure e] = input → Leaves w input (.failed e)

/-- The longest accepted text is no longer than this, and belongs to one of so many rules. -/
def LongestFits (length rules : Nat) (longest : Option (Nat × Nat)) : Prop :=
  ∀ n pattern, longest = some (n, pattern) → n ≤ length ∧ pattern < rules

/-- An attempt on the window does what one on the list does, and stays in range. -/
structure Walk.Follows (w : Walk) (rules : Nat) (input : List (Poll ReadError))
    (a : Attempt ReadError) : Prop where
  longest_eq : w.longest = a.longest
  leaves : w.Leaves input a.halt
  fits : LongestFits w.window.length rules w.longest

variable {dfa : Dfa Nat} {rules s : Nat} {longest : Option (Nat × Nat)}
  {input : List (Poll ReadError)}

theorem LongestFits.mono {length length' : Nat} (h : LongestFits length rules longest)
    (hle : length ≤ length') : LongestFits length' rules longest := fun n pattern hn ↦
  ⟨Nat.le_trans (h n pattern hn).1 hle, (h n pattern hn).2⟩

theorem LongestFits.after (h : LongestFits consumed rules longest) (pattern? : Option Nat) :
    (∀ pattern, pattern? = some pattern → pattern < rules) →
      LongestFits (consumed + 1) rules (match pattern? with
        | some pattern => some (consumed + 1, pattern)
        | none => longest) := by
  intro hpattern
  cases pattern? with
  | some pattern =>
    intro _ _ hlongest
    cases hlongest
    exact ⟨Nat.le_refl _, hpattern pattern rfl⟩
  | none => exact h.mono (Nat.le_succ _)

/-- An attempt on the window takes the steps of one on the list.  All along, what is in the window
and what the decoder has left make up the same input. -/
theorem walk_follows (hfits : dfa.Fits rules) (hs : dfa.Reached s)
    (hinput : window.map .char ++ d.polls = input) (hrange : d.InRange)
    (hconsumed : consumed ≤ window.length) (hlongest : LongestFits consumed rules longest) :
    ∃ w, walk dfa window s consumed longest d = .ok w ∧
      w.Follows rules input (follow dfa s consumed longest (input.drop consumed)) ∧
      window.length ≤ w.window.length ∧
      w.window.length + w.decoder.cost ≤ window.length + d.cost + 1 := by
  fun_induction walk dfa window s consumed longest d with
  | case1 window s consumed longest d fault hlook =>
    have hlooked := hlook ▸ looked_look hrange hconsumed
    cases hlooked
  | case2 window s consumed longest d window' d' hlook =>
    have hlooked := hlook ▸ looked_look hrange hconsumed
    cases hlooked with
    | endOfInput hlength hend hrange' hcost =>
      subst hlength
      have htail : d'.polls = d.polls.tail := by
        rcases hend with ⟨hnil, hnil'⟩ | hend
        · rw [hnil, hnil', List.tail_nil]
        · rw [hend, List.tail_cons]
      have hfollow : follow dfa s window.length longest d.polls =
          ⟨longest, .ended window.length⟩ := by
        rcases hend with ⟨hnil, -⟩ | hend
        · rw [hnil, follow]
        · rw [hend, follow]
      refine ⟨_, rfl, ?_, Nat.le_refl _, Nat.add_le_add_left hcost _⟩
      rw [← hinput, List.drop_left' (List.length_map _), hfollow]
      exact ⟨rfl, .ended rfl hrange' rfl htail, hlongest⟩
  | case3 window s consumed longest d e window' d' hlook =>
    have hlooked := hlook ▸ looked_look hrange hconsumed
    cases hlooked with
    | failure hlength hfailure hcost =>
      subst hlength
      refine ⟨_, rfl, ?_, Nat.le_refl _, Nat.add_le_add_left hcost _⟩
      rw [← hinput, List.drop_left' (List.length_map _), hfailure, follow]
      exact ⟨rfl, .failed rfl rfl, hlongest⟩
  | case4 window s consumed longest d c window' d' hlook fault hstep =>
    rw [hfits.stepAt hs] at hstep
    cases hstep
  | case5 window s consumed longest d c window' d' hlook hstep =>
    have hlooked := hlook ▸ looked_look hrange hconsumed
    cases hlooked with
    | char hsame hget hle hrange' hcost =>
      obtain ⟨hlt, -⟩ := List.getElem?_eq_some_iff.mp hget
      rw [hfits.stepAt hs, Except.ok.injEq] at hstep
      refine ⟨_, rfl, ?_, hle, Nat.le_succ_of_le hcost⟩
      rw [← hinput, ← hsame, drop_eq_cons hget, follow, hstep]
      exact ⟨rfl, .stuck rfl hrange' rfl, hlongest.mono (Nat.le_of_lt hlt)⟩
  | case6 window s consumed longest d c window' d' hlook next hstep fault haccepting =>
    rw [hfits.stepAt hs, Except.ok.injEq] at hstep
    rw [hfits.acceptingAt (hs.step hstep)] at haccepting
    cases haccepting
  | case7 window s consumed longest d c window' d' hlook next hstep accepting haccepting _ ih =>
    have hlooked := hlook ▸ looked_look hrange hconsumed
    cases hlooked with
    | char hsame hget hle hrange' hcost =>
      obtain ⟨hlt, -⟩ := List.getElem?_eq_some_iff.mp hget
      rw [hfits.stepAt hs, Except.ok.injEq] at hstep
      have hnext := hs.step hstep
      rw [hfits.acceptingAt hnext, Except.ok.injEq] at haccepting
      subst haccepting
      obtain ⟨w, hwalk, hfollows, hle', hcost'⟩ := ih hnext (hsame.trans hinput) hrange' hlt
        (hlongest.after _ fun pattern ↦ hfits.accepting_lt hnext)
      refine ⟨w, hwalk, ?_, Nat.le_trans hle hle',
        Nat.le_trans hcost' (Nat.add_le_add_right hcost 1)⟩
      rw [← hinput, ← hsame, drop_eq_cons hget, follow, hstep, hsame, hinput]
      exact hfollows

end

end Scan

end RegexScan

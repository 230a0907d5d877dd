import RegexScan.Proofs.Machine.HandOut
import RegexScan.Proofs.Machine.Window

/-!
# Machines stay in range

A whole scan through a window, where everything that could be out of range is a fault.  It ends by
what is left to be read, and for a machine that was built it has no fault, asks the reader no more
often than there are reads and bytes, and hands out and returns what the scan on lists does.
-/

namespace RegexScan

open Reader (Decoder)

namespace Scan

/-! ## From attempt to attempt -/

/-- The next turn of a scan: it is over and has asked so often, or it has made an attempt. -/
inductive Turn where
  | over (result : Except ReadError Unit) (asked : Nat)
  | tried (w : Walk)

/-- Try to match at the front of a window. -/
def tryWindow (dfa : Dfa Nat) (window : List Char) (d : Decoder) : Except Fault Turn :=
  match dfa.acceptingAt dfa.start with
  | .error fault => .error fault
  | .ok accepting => (walk dfa window dfa.start 0 (accepting.map (0, ·)) d).map .tried

/-- Nothing is tried without a character in the window. -/
def turn (dfa : Dfa Nat) (window : List Char) (d : Decoder) : Except Fault Turn :=
  match window with
  | [] =>
    match d.next with
    | .error fault => .error fault
    | .ok (.char c, d) => tryWindow dfa [c] d
    | .ok (.endOfInput, d) => .ok (.over (.ok ()) d.asked)
    | .ok (.failure e, d) => .ok (.over (.error e) d.asked)
  | c :: window => tryWindow dfa (c :: window) d

theorem length_tryWindow {dfa : Dfa Nat} {window : List Char} {d : Decoder} {w : Walk}
    (h : tryWindow dfa window d = .ok (.tried w)) :
    w.window.length + w.decoder.left ≤ window.length + d.left := by
  rw [tryWindow] at h
  split at h
  · cases h
  · obtain ⟨w', hwalk, hw'⟩ := map_eq_ok_iff.mp h
    cases hw'
    exact length_walk hwalk

theorem length_turn {dfa : Dfa Nat} {window : List Char} {d : Decoder} {w : Walk}
    (h : turn dfa window d = .ok (.tried w)) :
    w.window.length + w.decoder.left ≤ window.length + d.left := by
  cases window with
  | nil =>
    rw [turn] at h
    split at h
    · cases h
    · next hnext =>
      have hleft := Decoder.left_next hnext
      exact Nat.le_trans (length_tryWindow h) (Nat.le_trans hleft (Nat.le_add_left ..))
    · cases h
    · cases h
  | cons c window => exact length_tryWindow h

variable {m : Type → Type} [Monad m]

namespace Walk

/-- How far the next attempt is. -/
def advance (w : Walk) : Nat := stride w.longest

/-- The match in the window, which stands at the offset of the window. -/
def found? (w : Walk) (offset : Nat) : Option Match :=
  w.longest.map fun (length, pattern) ↦ ⟨String.ofList (w.window.take length), offset, pattern⟩

/-- Hand out the match, if there is one, and ask whether to stop. -/
def handOut (w : Walk) (onMatch : Match → m (Except Fault Bool)) (offset : Nat) :
    m (Except Fault Bool) :=
  match w.found? offset with
  | some found => onMatch found
  | none => pure (.ok false)

end Walk

/-- Scan from a window and a decoder on.  Besides its result, a scan returns how often the reader
was asked. -/
def runWindow (dfa : Dfa Nat) (onMatch : Match → m (Except Fault Bool)) (offset : Nat)
    (window : List Char) (d : Decoder) : m (Except Fault (Except ReadError Unit × Nat)) :=
  match _h : turn dfa window d with
  | .error fault => pure (.error fault)
  | .ok (.over result asked) => pure (.ok (result, asked))
  | .ok (.tried w) =>
    w.handOut onMatch offset >>= fun
      | .error fault => pure (.error fault)
      | .ok true => pure (.ok (.ok (), w.decoder.asked))
      | .ok false =>
        match w.failure with
        | some e => pure (.ok (.error e, w.decoder.asked))
        | none =>
          if _hadvance : w.window.length < w.advance then pure (.error .drain)
          else runWindow dfa onMatch (offset + w.advance) (w.window.drop w.advance) w.decoder
termination_by window.length + d.left
decreasing_by
  have hlength := length_turn _h
  have hpos : 0 < w.advance := stride_pos w.longest
  rw [List.length_drop]
  omega

/-! ## A scan through a window is one of the list -/

/-- The failure that an attempt ran into. -/
def Halt.failure? {ε : Type} : Halt ε → Option ε
  | .failed e => some e
  | _ => none

section

variable {dfa : Dfa Nat} {rules : Nat} {window : List Char} {d : Decoder} {w : Walk}
  {input : List (Poll ReadError)} {a : Attempt ReadError}

/-- An attempt leaves as much in the window as it wants to drop. -/
theorem Walk.Follows.advance_le (h : w.Follows rules input a) (hpos : 0 < w.window.length) :
    w.advance ≤ w.window.length :=
  stride_le (fun _ hlongest ↦ (h.fits _ _ hlongest).1) hpos

/-- What is in the window is in front in the input. -/
theorem Walk.Leaves.exists_later {halt : Halt ReadError} (h : w.Leaves input halt) :
    ∃ later, w.window.map .char ++ later = input := by
  cases h with
  | stuck _ _ hinput => exact ⟨_, hinput⟩
  | ended _ _ hinput _ => exact ⟨_, hinput⟩
  | failed _ hinput => exact ⟨_, hinput⟩

theorem Walk.Follows.advance_eq (h : w.Follows rules input a) : a.advance = w.advance := by
  rw [Attempt.advance_eq, Walk.advance, h.longest_eq]

/-- The match in the window is the one in the input. -/
theorem Walk.Follows.found?_eq (h : w.Follows rules input a) (offset : Nat) :
    w.found? offset = a.found? offset input := by
  have hlength : ∀ longest, a.longest = some longest → longest.1 ≤ w.window.length :=
    fun _ hlongest ↦ (h.fits _ _ (h.longest_eq.trans hlongest)).1
  obtain ⟨later, rfl⟩ := h.leaves.exists_later
  rw [found?_append a offset hlength, Walk.found?, h.longest_eq]

theorem Walk.Follows.failure_eq (h : w.Follows rules input a) : w.failure = a.halt.failure? := by
  have hleaves := h.leaves
  generalize a.halt = halt at hleaves
  cases hleaves with
  | stuck hfailure _ _ => exact hfailure
  | ended hfailure _ _ _ => exact hfailure
  | failed hfailure _ => exact hfailure

/-- What is left behind an attempt that has not run into a failure. -/
theorem Walk.Follows.remaining_eq (h : w.Follows rules input a) (hfailure : w.failure = none)
    (hpos : 0 < w.window.length) :
    w.decoder.InRange ∧
      a.remaining input = (w.window.drop w.advance).map .char ++ w.decoder.polls := by
  have hadvance : w.advance ≤ (w.window.map (@Poll.char ReadError)).length := by
    rw [List.length_map]
    exact h.advance_le hpos
  have hleaves := h.leaves
  rw [Attempt.remaining, h.advance_eq, List.map_drop, ← List.drop_append_of_le_length hadvance]
  generalize a.halt = halt at hleaves
  cases hleaves with
  | stuck _ hrange hinput => exact ⟨hrange, by rw [hinput]⟩
  | ended _ hrange hinput hpolls =>
    refine ⟨hrange, ?_⟩
    change (input.eraseIdx w.window.length).drop _ = _
    rw [← hinput, hpolls, eraseIdx_append]
  | failed hfailed _ =>
    rw [hfailure] at hfailed
    cases hfailed

/-- An attempt on the window succeeds, follows the attempt on the list, and asks for one
answer more than there are at most. -/
theorem tryWindow_follows (hfits : dfa.Fits rules) (hinput : window.map .char ++ d.polls = input)
    (hrange : d.InRange) :
    ∃ w, tryWindow dfa window d = .ok (.tried w) ∧ w.Follows rules input (attempt dfa input) ∧
      window.length ≤ w.window.length ∧
      w.window.length + w.decoder.cost ≤ window.length + d.cost + 1 := by
  have hstart := dfa.reached_start
  have hlongest : LongestFits 0 rules ((dfa.accepting? dfa.start).map (0, ·)) := by
    intro n pattern h
    obtain ⟨_, haccepting, hpair⟩ := Option.map_eq_some_iff.mp h
    cases hpair
    exact ⟨Nat.le_refl 0, hfits.accepting_lt hstart haccepting⟩
  obtain ⟨w, hwalk, hfollows, hlength, hcost⟩ :=
    walk_follows hfits hstart hinput hrange (Nat.zero_le _) hlongest
  refine ⟨w, ?_, hfollows, hlength, hcost⟩
  rw [tryWindow, hfits.acceptingAt hstart]
  exact map_eq_ok_iff.mpr ⟨w, hwalk, rfl⟩

/-- A turn of a scan through a window is one of the scan of the list. -/
inductive Turned (dfa : Dfa Nat) (rules bound : Nat) (input : List (Poll ReadError)) :
    Except Fault Turn → Prop
  | ended {asked : Nat} : input = [] ∨ (∃ later, input = .endOfInput :: later) → asked ≤ bound →
      Turned dfa rules bound input (.ok (.over (.ok ()) asked))
  | failed {e : ReadError} {asked : Nat} : input = [.failure e] → asked ≤ bound →
      Turned dfa rules bound input (.ok (.over (.error e) asked))
  | tried {w : Walk} {c : Char} {rest : List (Poll ReadError)} : input = .char c :: rest →
      w.Follows rules input (attempt dfa input) → 0 < w.window.length →
      w.window.length + w.decoder.cost ≤ bound → Turned dfa rules bound input (.ok (.tried w))

/-- Every turn through the window is one of the list. -/
theorem turned_turn (hfits : dfa.Fits rules) (hinput : window.map .char ++ d.polls = input)
    (hrange : d.InRange) :
    Turned dfa rules (window.length + d.cost + 1) input (turn dfa window d) := by
  cases window with
  | cons c window =>
    obtain ⟨w, htry, hfollows, hlength, hcost⟩ := tryWindow_follows hfits hinput hrange
    rw [turn, htry]
    exact .tried hinput.symm hfollows (Nat.lt_of_lt_of_le (Nat.zero_lt_succ _) hlength) hcost
  | nil =>
    obtain ⟨poll, d', hnext, hanswers⟩ := hrange.next
    rw [turn, hnext]
    rw [List.map_nil, List.nil_append] at hinput
    rw [List.length_nil, Nat.zero_add]
    have hasked : d'.asked ≤ d'.cost := Nat.le_add_right ..
    cases hanswers with
    | @char c d' hpolls hrange' _ hcost =>
      have hinput' : [c].map .char ++ d'.polls = input := hpolls.symm.trans hinput
      obtain ⟨w, htry, hfollows, hlength, hcost'⟩ := tryWindow_follows hfits hinput' hrange'
      dsimp only
      rw [htry]
      rw [List.length_singleton, Nat.add_comm 1] at hcost'
      exact .tried hinput'.symm hfollows hlength
        (Nat.le_trans hcost' (Nat.add_le_add_right hcost 1))
    | endOfInput hend _ _ hcost =>
      refine .ended ?_ (Nat.le_trans hasked hcost)
      rw [← hinput]
      exact hend.imp And.left fun h ↦ ⟨_, h⟩
    | failure hfailure _ hcost =>
      exact .failed (hinput.symm.trans hfailure) (Nat.le_trans hasked hcost)

end

/-- What a scan returns is a result and how often the reader was asked, and not a fault. -/
def Returned (bound : Nat) (r : Except Fault (Except ReadError Unit × Nat))
    (result : Except ReadError Unit) : Prop :=
  ∃ asked ≤ bound, r = .ok (result, asked)

section

variable {m : Type → Type} [Monad m] {dfa : Dfa Nat} {rules : Nat} {onMatch : Match → m Bool}
  {checked : Match → m (Except Fault Bool)}

/-- A scan of a list that begins with a character makes an attempt. -/
theorem run_char {ε : Type} (offset : Nat) (c : Char) (rest : List (Poll ε)) :
    run dfa onMatch offset (.char c :: rest) =
      (match (attempt dfa (.char c :: rest)).found? offset (.char c :: rest) with
        | some found => onMatch found
        | none => pure false) >>= fun stop ↦
        if stop then pure (.ok ())
        else match (attempt dfa (.char c :: rest)).halt.failure? with
          | some e => pure (.error e)
          | none => run dfa onMatch (offset + (attempt dfa (.char c :: rest)).advance)
            ((attempt dfa (.char c :: rest)).remaining (.char c :: rest)) := by
  rw [run]
  generalize attempt dfa (.char c :: rest) = a
  cases a.found? offset (.char c :: rest) <;> cases a.halt <;> rfl

variable [LawfulMonad m] {w : Walk} {input : List (Poll ReadError)} {a : Attempt ReadError}

/-- A match in the window is that of the list, and belongs to a rule. -/
theorem Walk.Follows.handOut_eq (h : w.Follows rules input a)
    (hchecked : ∀ found, found.pattern < rules → checked found = .ok <$> onMatch found)
    (offset : Nat) :
    w.handOut checked offset =
      .ok <$> (match a.found? offset input with
        | some found => onMatch found
        | none => pure false) := by
  rw [Walk.handOut, ← h.found?_eq]
  cases hfound : w.found? offset with
  | none => exact (map_pure ..).symm
  | some found =>
    obtain ⟨longest, hlongest, rfl⟩ := Option.map_eq_some_iff.mp hfound
    exact hchecked _ (h.fits _ _ hlongest).2

/-- A scan through a window has no fault, does what the scan of the list does, and returns the same.
The reader is asked at most once more than there is in the window and left to be read. -/
theorem coupled_runWindow (hfits : dfa.Fits rules)
    (hchecked : ∀ found, found.pattern < rules → checked found = .ok <$> onMatch found)
    (offset : Nat) (window : List Char) {d : Decoder} (hrange : d.InRange) :
    Coupled (Returned (window.length + d.cost + 1)) (runWindow dfa checked offset window d)
      (run dfa onMatch offset (window.map .char ++ d.polls)) := by
  induction hn : window.length + d.left using Nat.strongRecOn generalizing offset window d with
  | ind n ih =>
    have hturned : Turned dfa rules (window.length + d.cost + 1) (window.map .char ++ d.polls)
        (turn dfa window d) := turned_turn hfits rfl hrange
    rw [runWindow]
    split
    · next hturn =>
      rw [hturn] at hturned
      cases hturned
    · next hturn =>
      rw [hturn] at hturned
      cases hturned with
      | ended hend hasked =>
        rcases hend with hnil | ⟨later, hend⟩
        · rw [hnil, run]
          exact coupled_pure ⟨_, hasked, rfl⟩
        · rw [hend, run]
          exact coupled_pure ⟨_, hasked, rfl⟩
      | failed hfailed hasked =>
        rw [hfailed, run]
        exact coupled_pure ⟨_, hasked, rfl⟩
    · next w hturn =>
      have hlength := length_turn hturn
      rw [hturn] at hturned
      cases hturned with
      | @tried _ c rest hinput hfollows hpos hcost =>
        have hasked : w.decoder.asked ≤ window.length + d.cost + 1 :=
          Nat.le_trans (Nat.le_add_right ..) (Nat.le_trans (Nat.le_add_left ..) hcost)
        rw [hinput] at hfollows ⊢
        rw [run_char, hfollows.handOut_eq hchecked, bind_map_left]
        refine coupled_bind_left _ fun stop ↦ ?_
        cases stop with
        | true => exact coupled_pure ⟨_, hasked, rfl⟩
        | false =>
          rw [if_neg Bool.false_ne_true, ← hfollows.failure_eq]
          cases hfailure : w.failure with
          | some e => exact coupled_pure ⟨_, hasked, rfl⟩
          | none =>
            -- what is dropped makes up for what was asked beyond the end of the reads
            have hadvance := hfollows.advance_le hpos
            have hadvance_pos : 0 < w.advance := stride_pos w.longest
            obtain ⟨hrange', hremaining⟩ := hfollows.remaining_eq hfailure hpos
            dsimp only
            rw [dif_neg (Nat.not_lt.mpr hadvance), hfollows.advance_eq, hremaining]
            refine (ih _ ?_ _ _ hrange' rfl).mono ?_
            · rw [List.length_drop]
              omega
            · rintro r result ⟨asked, hle, rfl⟩
              rw [List.length_drop] at hle
              exact ⟨asked, by omega, rfl⟩

end

end Scan

namespace Machine

/-! ## Machines that were built -/

section

variable {m : Type → Type} {rules : RuleSet m} {machine : Machine m}

/-- Every state that the automaton of a machine comes to exists, and accepts the index of a rule. -/
theorem fits_of_build (h : build rules = .ok machine) :
    machine.dfa.Fits machine.rules.length := by
  obtain ⟨trees, htrees, dfa, hdfa, rfl⟩ := build_eq_ok_iff.mp h
  have hlength : trees.length = rules.rules.length := by
    have hlengths := congrArg List.length htrees
    rw [List.length_map, List.length_map, RuleSet.patterns, List.length_map] at hlengths
    exact hlengths.symm
  constructor
  · rintro s ⟨v, hv⟩
    have hr := (Nfa.rooted_initial.addRegexes trees.zipIdx).toInRange
    obtain ⟨found, hfound, hstands⟩ := Dfa.standsFor_steps hr hdfa hv
    obtain ⟨k, hk, -⟩ := hstands.exists_members
    obtain ⟨hlt, -⟩ := Array.getElem?_eq_some_iff.mp hk
    exact Nat.lt_of_lt_of_eq hlt hfound.size_eq
  · rintro s pattern ⟨v, hv⟩ haccepting
    have hverdict : dfa.verdict v = some pattern := by
      rw [Dfa.verdict, hv, Option.bind_some, haccepting]
    obtain ⟨⟨r, hr, -⟩, -⟩ :=
      ((Dfa.recognizes_determinize hdfa).verdict_eq_some_iff v pattern).mp hverdict
    obtain ⟨hlt, -⟩ := List.getElem?_eq_some_iff.mp hr
    exact hlength ▸ hlt

variable [Monad m]

/-- The rule that a match belongs to is looked up by its index. -/
def dispatchAt (machine : Machine m) (found : Match) : m (Except Fault Bool) :=
  match machine.rules[found.pattern]? with
  | some rule => Except.ok <$> rule.action found
  | none => pure (.error .rule)

/-- Scan what a reader serves, with everything checked, and count how often the reader was asked. -/
def checkedScan (machine : Machine m) (reads : List Read) :
    m (Except Fault (Except MachineError Unit × Nat)) :=
  Except.map (Prod.map (Except.mapError .unreadable) id) <$>
    Scan.runWindow machine.dfa machine.dispatchAt 0 [] (.ofReads reads)

theorem dispatchAt_eq {found : Match} (h : found.pattern < machine.rules.length) :
    machine.dispatchAt found = .ok <$> machine.dispatch found := by
  rw [dispatchAt, dispatch, List.getElem?_eq_getElem h]

variable [LawfulMonad m]

/-- A machine that was built scans whatever is read without a fault, asks the reader at most once
more than there are reads and bytes, and hands out and returns what it does without the checks. -/
theorem checkedScan_never_faults (h : build rules = .ok machine) (reads : List Read) :
    Always (fun r ↦ ∃ result, ∃ asked ≤ Reader.weight reads + 1, r = .ok (result, asked))
        (machine.checkedScan reads) ∧
      Except.map Prod.fst <$> machine.checkedScan reads = Except.ok <$> machine.scan reads := by
  have hcoupled : Coupled
      (fun r result ↦ ∃ asked ≤ Reader.weight reads + 1, r = .ok (result, asked))
      (machine.checkedScan reads) (machine.scan reads) := by
    have hrun := Scan.coupled_runWindow (fits_of_build h) (fun _ ↦ dispatchAt_eq) 0 []
      (Decoder.inRange_ofReads reads)
    rw [List.length_nil, Nat.zero_add, Decoder.cost_ofReads] at hrun
    rw [checkedScan, scan_eq_map, ← Decoder.polls_ofReads]
    refine hrun.map ?_
    rintro _ result ⟨asked, hasked, rfl⟩
    exact ⟨asked, hasked, rfl⟩
  constructor
  · exact hcoupled.always fun _ result ⟨asked, hasked, hr⟩ ↦ ⟨result, asked, hasked, hr⟩
  · apply hcoupled.map_eq_map
    rintro _ result ⟨asked, -, rfl⟩
    rfl

end

/-- Empty matches, an end of the input in the middle of an attempt, an interrupted read, and an end
of the input in the middle of a character. -/
theorem build_checked_star :
    let onA : Dfa.Transition := ⟨⟨['a'], false, by decide⟩, 1⟩
    let rules : RuleSet (StateM (List Nat)) :=
      ⟨[⟨"a*", fun found ↦ (fun _ ↦ false) <$> modify (· ++ [found.offset])⟩], none⟩
    let machine : Machine (StateM (List Nat)) :=
      ⟨⟨0, #[⟨[onA], some 0⟩, ⟨[onA], some 0⟩]⟩, rules.rules⟩
    let reads : List Read := [.bytes [0x61, 0x62, 0x61], .bytes [],
      .failure ⟨.interrupted, "interrupted"⟩, .bytes [0xC3], .bytes [], .bytes [0x61]]
    build rules = .ok machine ∧
      (∃ result, ∃ asked ≤ 12, ((machine.checkedScan reads).run []).1 = .ok (result, asked)) ∧
      (Except.map Prod.fst <$> machine.checkedScan reads).run [] =
        (.ok (.error (.unreadable .notUtf8)), [0, 1, 2]) := by
  intro onA rules machine reads
  have hbuild : build rules = .ok machine := by cbv
  have hreads : Reader.polls [] reads =
      [.char 'a', .char 'b', .char 'a', .endOfInput, .failure .notUtf8] := by
    decide +kernel
  have houtcome : Scan.outcome machine.dfa 0
      [.char 'a', .char 'b', .char 'a', .endOfInput, .failure ReadError.notUtf8] =
        ⟨[⟨"a", 0, 0⟩, ⟨"", 1, 0⟩, ⟨"a", 2, 0⟩], .error .notUtf8⟩ := by
    cbv
  obtain ⟨⟨y, hy⟩, hsame⟩ := checkedScan_never_faults hbuild reads
  refine ⟨hbuild, ?_, (congrArg (·.run []) hsame).trans ?_⟩
  · rw [← hy]
    exact (y.run []).1.2
  · rw [scan_eq_of_outcome machine hreads houtcome]
    rfl

end Machine

end RegexScan

import Mathlib.Order.Bounds.Basic
import RegexScan.Proofs.Machine.Attempts
import RegexScan.Proofs.Machine.HandOut

/-!
# Scans that fail

A source may fail where a text would end.  Up to the attempt that runs into the failure, a scan
finds what it finds in the characters before it.  That attempt takes all the characters that are
left, so what might have been found among them later is lost.
-/

namespace RegexScan

namespace Scan

variable {ε : Type} {dfa : Dfa Nat} {cs : List Char} {e : ε}

/-- The characters of a text, and then a failure. -/
def failing (cs : List Char) (e : ε) : List (Poll ε) := cs.map .char ++ [.failure e]

theorem outcome_failing_nil (dfa : Dfa Nat) (start : Nat) (e : ε) :
    outcome dfa start (failing [] e) = ⟨[], .error e⟩ := by
  rw [failing, List.map_nil, List.nil_append, outcome]

section

variable {start : Nat} {longest : Option (Nat × Nat)}

/-- If the attempt takes all that is left, the failure follows on its match. -/
theorem outcome_failing_of_takesAll (e : ε) (hlt : start < cs.length)
    (h : IsLongest dfa (cs.drop start) longest) (hall : TakesAll dfa cs start) :
    outcome dfa start (failing (cs.drop start) e) =
      Outcome.after ⟨[], .error e⟩ (matchAt cs start longest) :=
  outcome_append_of_takesAll rfl hlt h hall

/-- If the attempt does not take all that is left, the scan goes on as in the text. -/
theorem outcome_failing_of_not_takesAll (e : ε) (hlt : start < cs.length)
    (h : IsLongest dfa (cs.drop start) longest) (hall : ¬TakesAll dfa cs start) :
    outcome dfa start (failing (cs.drop start) e) =
      (outcome dfa (start + stride longest) (failing (cs.drop (start + stride longest)) e)).after
        (matchAt cs start longest) :=
  outcome_append_of_not_takesAll rfl hlt h hall

theorem result_outcome_failing (dfa : Dfa Nat) (cs : List Char) (e : ε) (start : Nat) :
    (outcome dfa start (failing (cs.drop start) e)).result = .error e := by
  induction start using scan_induction dfa cs with
  | behind start hge => rw [List.drop_eq_nil_of_le hge, outcome_failing_nil]
  | attempt start longest hlt h ih =>
    by_cases hall : TakesAll dfa cs start
    · rw [outcome_failing_of_takesAll e hlt h hall]
      rfl
    · rw [outcome_failing_of_not_takesAll e hlt h hall]
      exact ih

end

/-! ## What the failure takes away -/

section

variable (ε' : Type) (dfa : Dfa Nat) (cs : List Char) (e : ε)

/-- What a failing source lets a scan find comes first among the matches of the text. -/
theorem found_outcome_failing_prefix (start : Nat) :
    (outcome dfa start (failing (cs.drop start) e)).found <+:
      (outcome dfa start ((cs.drop start).map (@Poll.char ε'))).found := by
  induction start using scan_induction dfa cs with
  | behind start hge =>
    rw [List.drop_eq_nil_of_le hge, outcome_failing_nil]
    exact List.nil_prefix
  | attempt start longest hlt h ih =>
    rw [outcome_text ε' hlt h]
    by_cases hall : TakesAll dfa cs start
    · rw [outcome_failing_of_takesAll e hlt h hall]
      exact (List.prefix_append_right_inj _).mpr List.nil_prefix
    · rw [outcome_failing_of_not_takesAll e hlt h hall]
      exact (List.prefix_append_right_inj _).mpr ih

/-- Nothing is lost if no attempt takes all that is left. -/
theorem found_outcome_failing_of_not_takesAll (start : Nat)
    (hnone : ∀ p, Attempted dfa cs start p → ¬TakesAll dfa cs p) :
    (outcome dfa start (failing (cs.drop start) e)).found =
      (outcome dfa start ((cs.drop start).map (@Poll.char ε'))).found :=
  congrArg Outcome.found
    (outcome_append_of_none ε' rfl (outcome_failing_nil dfa · e) hnone)

/-- What is found behind the first attempt that takes all that is left is lost. -/
theorem found_outcome_failing_of_first {start p : Nat} (hp : Attempted dfa cs start p)
    (hall : TakesAll dfa cs p)
    (hfirst : ∀ q, Attempted dfa cs start q → TakesAll dfa cs q → p ≤ q) :
    (outcome dfa start (failing (cs.drop start) e)).found =
      (outcome dfa start ((cs.drop start).map (@Poll.char ε'))).found.filter (·.offset ≤ p) := by
  obtain ⟨longest, h⟩ := exists_isLongest dfa (cs.drop p)
  rw [failing, outcome_append_of_first ε' rfl hp hall hfirst h, resume, List.append_nil]

end

/-! ## Actions that never stop -/

section

variable {m : Type → Type} [Monad m] [LawfulMonad m] {onMatch : Match → m Bool}

/-- Actions that never stop a scan are handed every match. -/
theorem always_handOut_all (hnever : ∀ found, Always (· = false) (onMatch found))
    (found : List Match) :
    Always (· = found.map (·, false)) (handOut onMatch found) := by
  induction found with
  | nil => exact always_pure rfl
  | cons found later ih =>
    refine (hnever found).bind fun stop hstop ↦ ?_
    subst hstop
    simp only [Bool.false_eq_true, if_false, bind_pure_comp]
    exact ih.map fun answers hanswers ↦ congrArg ((found, false) :: ·) hanswers

/-- If no action stops a scan, it ends as its input does. -/
theorem feed_eq_of_never {ε : Type} (hnever : ∀ found, Always (· = false) (onMatch found))
    (result : Except ε Unit) (found : List Match) :
    feed onMatch result found = (fun _ ↦ result) <$> handOut onMatch found := by
  rw [feed_eq_handOut]
  apply (always_handOut_all hnever found).map_congr
  rintro _ rfl
  have hany : ((found.map (·, false)).any (·.2)) = false := by
    rw [List.any_map, List.any_eq_false]
    exact fun _ _ ↦ Bool.false_ne_true
  rw [hany]
  rfl

end

end Scan

/-! ## Machines -/

namespace Machine

variable {m : Type → Type} [Monad m]

/-- No action of the machine ever answers true. -/
def NeverStops (machine : Machine m) : Prop :=
  ∀ rule ∈ machine.rules, ∀ found, Always (· = false) (rule.action found)

variable [LawfulMonad m] {machine : Machine m}

theorem NeverStops.dispatch (h : machine.NeverStops) (found : Match) :
    Always (· = false) (machine.dispatch found) := by
  unfold Machine.dispatch
  split
  · next rule hrule => exact h rule (List.mem_of_getElem? hrule) found
  · exact always_pure rfl

/-- A scan of a source that fails behind a text reports the failure and hands out a part of what is
in the text.  Nothing but what is behind the first attempt that takes all the rest of the text is
missing. -/
theorem scan_failing_keeps_earlier (hnever : machine.NeverStops) {reads : List Read}
    {text : String} {e : ReadError} (hreads : Reader.polls [] reads = Scan.failing text.toList e) :
    ∃ kept, machine.scan reads = (fun _ ↦ .error (.unreadable e)) <$> machine.handOut kept ∧
      Always (· = kept.map (·, false)) (machine.handOut kept) ∧
      kept <+: machine.findAll text ∧
      (∀ p, IsLeast {p | Scan.Attempted machine.dfa text.toList 0 p ∧
          Scan.TakesAll machine.dfa text.toList p} p →
        kept = (machine.findAll text).filter (·.offset ≤ p)) ∧
      ((∀ p, Scan.Attempted machine.dfa text.toList 0 p →
          ¬Scan.TakesAll machine.dfa text.toList p) →
        kept = machine.findAll text) := by
  simp only [findAll_eq]
  refine ⟨(Scan.outcome machine.dfa 0 (Scan.failing text.toList e)).found, ?_,
    Scan.always_handOut_all hnever.dispatch _,
    Scan.found_outcome_failing_prefix Empty machine.dfa text.toList e 0, ?_,
    Scan.found_outcome_failing_of_not_takesAll Empty machine.dfa text.toList e 0⟩
  · have hresult := Scan.result_outcome_failing machine.dfa text.toList e 0
    rw [List.drop_zero] at hresult
    rw [scan, hreads, Scan.run_eq_feed, hresult, Scan.feed_eq_of_never hnever.dispatch,
      bind_map_left, map_eq_pure_bind]
    rfl
  · rintro p ⟨⟨hp, hall⟩, hfirst⟩
    exact Scan.found_outcome_failing_of_first Empty machine.dfa text.toList e hp hall
      fun q hq hqall ↦ hfirst ⟨hq, hqall⟩

/-- The attempt behind the first match runs into the failure.  What it matches is handed out, and
what is behind that is lost. -/
theorem scan_failing_in_lookahead :
    let onA : Dfa.Transition := ⟨⟨['a'], false, by decide⟩, 1⟩
    let onB (target : Nat) : Dfa.Transition := ⟨⟨['b'], false, by decide⟩, target⟩
    let onC : Dfa.Transition := ⟨⟨['c'], false, by decide⟩, 2⟩
    let machine : Machine (StateM (List Nat)) :=
      ⟨⟨0, #[⟨[onA, onB 2], none⟩, ⟨[onB 3, onC], some 0⟩, ⟨[], some 0⟩, ⟨[onB 3, onC], none⟩]⟩,
        [⟨"ab*c|a|b", fun found ↦ (fun _ ↦ false) <$> modify (· ++ [found.offset])⟩]⟩
    let reads : List Read := [.bytes [0x61, 0x61, 0x62], .failure ⟨.interrupted, "interrupted"⟩,
      .bytes [0x62], .failure ⟨.timedOut, "timed out"⟩]
    (machine.findAll "aabb").map (·.offset) = [0, 1, 2, 3] ∧
      (machine.scan reads).run [] = (.error (.unreadable ⟨.timedOut, "timed out"⟩), [0, 1]) := by
  intro onA onB onC machine reads
  have hfound : machine.findAll "aabb" =
      [⟨"a", 0, 0⟩, ⟨"a", 1, 0⟩, ⟨"b", 2, 0⟩, ⟨"b", 3, 0⟩] := by
    rw [findAll_eq]
    cbv
  have hnever : machine.NeverStops := by
    intro rule hrule found
    rw [List.mem_singleton.mp hrule]
    exact (always_true _).map fun _ _ ↦ rfl
  have hserves : Reader.Serves [.bytes [0x61, 0x61, 0x62],
      .failure ⟨.interrupted, "interrupted"⟩, .bytes [0x62]] "aabb".toUTF8.data.toList := by
    rw [Reader.toUTF8_toList]
    exact .bytes (by decide) (.interrupted rfl (.bytes (by decide) .done))
  have hreads : Reader.polls [] reads = Scan.failing "aabb".toList ⟨.timedOut, "timed out"⟩ :=
    hserves.polls_failure (by decide) []
  have hlongest : Scan.IsLongest machine.dfa "aabb".toList (some (1, 0)) :=
    Scan.isLongest_attempt machine.dfa ("aabb".toList.map (@Poll.char Empty))
  have hleast : IsLeast {p | Scan.Attempted machine.dfa "aabb".toList 0 p ∧
      Scan.TakesAll machine.dfa "aabb".toList p} 1 := by
    refine ⟨⟨.later (by decide) hlongest (.here (by decide)), by cbv⟩, ?_⟩
    rintro q ⟨-, hall⟩
    apply Nat.pos_of_ne_zero
    rintro rfl
    cbv at hall
    cases hall
  obtain ⟨kept, hscan, -, -, hkept, -⟩ := scan_failing_keeps_earlier hnever hreads
  rw [hscan, hkept 1 hleast, hfound]
  exact ⟨rfl, rfl⟩

end Machine

end RegexScan

import RegexScan.Proofs.Machine.HandOut

/-!
# What is read behind an end of the input

A read of no bytes is an end of the input.  A scan that meets it between two attempts is over.  But
an attempt that meets it, because it takes every character that is left, only stops there.  The
scan goes on behind its match, and comes to whatever the reader serves next.
-/

namespace RegexScan

namespace Reader

/-- Reads without an end of the input hold a text, unless they fail.  What is read behind an end of
the input comes behind the text, and does not come at all behind a failure. -/
theorem polls_endOfInput {before : List Read} (hbefore : .bytes [] ∉ before)
    (pending : List UInt8) :
    ∃ cs : List Char, (polls pending before = cs.map .char ∧
        ∀ after, polls pending (before ++ .bytes [] :: after) =
          cs.map .char ++ .endOfInput :: polls [] after) ∨
      ∃ e, polls pending before = cs.map .char ++ [.failure e] ∧
        ∀ after, polls pending (before ++ .bytes [] :: after) =
          cs.map .char ++ [.failure e] := by
  induction before generalizing pending with
  | nil =>
    refine ⟨(Text.Utf8.decode pending).chars, ?_⟩
    simp only [List.nil_append, polls, pollsWith]
    cases (Text.Utf8.decode pending).malformed with
    | true => exact .inr ⟨.notUtf8, rfl, fun _ ↦ rfl⟩
    | false =>
      cases (Text.Utf8.decode pending).rest with
      | nil => exact .inl ⟨List.append_nil _, fun _ ↦ rfl⟩
      | cons b rest => exact .inr ⟨.notUtf8, rfl, fun _ ↦ rfl⟩
  | cons read before ih =>
    obtain ⟨hread, hrest⟩ := not_or.mp fun h ↦ hbefore (List.mem_cons.mpr h)
    simp only [List.cons_append]
    cases read with
    | bytes bs =>
      have hbs : bs ≠ [] := fun h ↦ hread (congrArg Read.bytes h.symm)
      simp only [polls_bytes hbs]
      exact ih hrest _
    | failure e =>
      by_cases he : e.kind = .interrupted
      · simp only [polls_interrupted he]
        exact ih hrest _
      · refine ⟨(Text.Utf8.decode pending).chars, .inr ?_⟩
        simp only [polls, pollsWith, if_neg he]
        cases (Text.Utf8.decode pending).malformed with
        | true => exact ⟨.notUtf8, rfl, fun _ ↦ rfl⟩
        | false => exact ⟨e, rfl, fun _ ↦ rfl⟩

end Reader

namespace Scan

variable {m : Type → Type} [Monad m] [LawfulMonad m] {ε : Type} (onMatch : Match → m Bool)

/-- Later matches are handed out behind earlier ones, unless one of those stops the scan. -/
theorem feed_append (result : Except ε Unit) (earlier later : List Match) :
    feed onMatch result (earlier ++ later) =
      handOut onMatch earlier >>= fun answers ↦
        if answers.any (·.2) then pure (.ok ()) else feed onMatch result later := by
  induction earlier with
  | nil =>
    rw [handOut, pure_bind]
    rfl
  | cons found earlier ih =>
    rw [List.cons_append, feed, handOut, bind_assoc]
    apply bind_congr
    intro stop
    cases stop with
    | true =>
      rw [if_pos rfl, if_pos rfl, pure_bind]
      rfl
    | false =>
      simp only [Bool.false_eq_true, if_false, bind_assoc, pure_bind]
      exact ih

variable {cs : List Char} {dfa : Dfa Nat}

/-- If no attempt takes all that is left of a text, the scan meets an end of the input behind the
text between two attempts, and is over. -/
theorem run_endOfInput_of_none (hnone : ∀ p, Attempted dfa cs 0 p → ¬TakesAll dfa cs p)
    (later : List (Poll ε)) :
    run dfa onMatch 0 (cs.map .char ++ .endOfInput :: later) =
      run dfa onMatch 0 (cs.map .char) := by
  have hend (offset : Nat) : outcome dfa offset (.endOfInput :: later) = ⟨[], .ok ()⟩ := by
    rw [outcome]
  have hcut := outcome_append_of_none ε rfl hend hnone
  have htext := outcome_text_eq ε ε dfa cs 0
  rw [List.drop_zero] at hcut htext
  rw [run_eq_feed, run_eq_feed, hcut, ← htext]

/-- The first attempt that takes all that is left of a text meets an end of the input behind the
text.  The scan hands out what is in the text up to there, and goes on as if the text had not ended
there. -/
theorem run_endOfInput_of_first {p : Nat} {longest : Option (Nat × Nat)}
    (hp : IsLeast {p | Attempted dfa cs 0 p ∧ TakesAll dfa cs p} p)
    (h : IsLongest dfa (cs.drop p) longest) (later : List (Poll ε)) :
    run dfa onMatch 0 (cs.map .char ++ .endOfInput :: later) =
      handOut onMatch ((outcome dfa 0 (cs.map (@Poll.char Empty))).found.filter (·.offset ≤ p)) >>=
        fun answers ↦ if answers.any (·.2) then pure (.ok ())
          else run dfa onMatch (p + stride longest)
            ((cs.drop (p + stride longest)).map .char ++ later) := by
  obtain ⟨⟨hattempted, hall⟩, hfirst⟩ := hp
  have htail : front (.endOfInput :: later) = [] := rfl
  have hcut := outcome_append_of_first Empty htail hattempted hall
    (fun q hq hqall ↦ hfirst ⟨hq, hqall⟩) h
  rw [List.drop_zero] at hcut
  rw [run_eq_feed, hcut, feed_append]
  simp only [run_eq_feed, resume, List.tail_cons]

end Scan

namespace Machine

variable {m : Type → Type} [Monad m] [LawfulMonad m]

/-- What is read behind an end of the input does not matter as long as no attempt takes all that is
left of the text before it.  Else the matches of the text are handed out up to the first such
attempt, and the scan goes on with what is left of the text and what is read next. -/
theorem scan_behind_endOfInput (machine : Machine m) {before : List Read}
    (hbefore : .bytes [] ∉ before) :
    ((∀ text : String, Reader.polls [] before = text.toList.map .char →
        ∀ p, Scan.Attempted machine.dfa text.toList 0 p →
          ¬Scan.TakesAll machine.dfa text.toList p) →
      ∀ after, machine.scan (before ++ .bytes [] :: after) = machine.scan before) ∧
    ∀ (text : String) (p : Nat) (longest : Option (Nat × Nat)),
      Reader.polls [] before = text.toList.map .char →
      IsLeast {p | Scan.Attempted machine.dfa text.toList 0 p ∧
        Scan.TakesAll machine.dfa text.toList p} p →
      Scan.IsLongest machine.dfa (text.toList.drop p) longest →
      ∀ after, machine.scan (before ++ .bytes [] :: after) =
        machine.handOut ((machine.findAll text).filter (·.offset ≤ p)) >>= fun answers ↦
          if answers.any (·.2) then pure (.ok ())
          else Except.mapError .unreadable <$> Scan.run machine.dfa machine.dispatch
            (p + Scan.stride longest)
            ((text.toList.drop (p + Scan.stride longest)).map .char ++
              Reader.polls [] after) := by
  simp only [scan_eq_map]
  obtain ⟨cs, (⟨htext, hafter⟩ | ⟨e, hfails, hafter⟩)⟩ := Reader.polls_endOfInput hbefore []
  · refine ⟨fun hnone after ↦ ?_, fun text p longest hreads hp h after ↦ ?_⟩
    · have hcs := hnone (String.ofList cs) (by rw [htext, String.toList_ofList])
      rw [String.toList_ofList] at hcs
      rw [hafter, htext, Scan.run_endOfInput_of_none _ hcs]
    · obtain rfl : cs = text.toList :=
        List.map_injective_iff.mpr (fun _ _ ↦ Poll.char.inj) (htext.symm.trans hreads)
      rw [hafter, Scan.run_endOfInput_of_first _ hp h, findAll_eq, map_bind]
      apply bind_congr
      intro answers
      split
      · rw [map_pure]
        rfl
      · rfl
  · refine ⟨fun _ after ↦ by rw [hafter, hfails], fun text p longest hreads ↦ ?_⟩
    -- the reads before it fail, so they hold no text
    have hmem : .failure e ∈ text.toList.map (@Poll.char ReadError) := by
      rw [← hreads, hfails]
      exact List.mem_concat_self
    obtain ⟨c, -, hc⟩ := List.mem_map.mp hmem
    cases hc

/-- Behind "ab" the scan is over, and behind "a" it goes on. -/
theorem scan_behind_ab_or_a :
    let machine : Machine (StateM (List Nat)) :=
      ⟨⟨0, #[⟨[⟨⟨['a'], false, by decide⟩, 1⟩], none⟩, ⟨[], some 0⟩]⟩,
        [⟨"a", fun found ↦ (fun _ ↦ false) <$> modify (· ++ [found.offset])⟩]⟩
    (machine.scan [.bytes [0x61, 0x62], .bytes [], .bytes [0x61]]).run [] = (.ok (), [0]) ∧
      (machine.scan [.bytes [0x61], .bytes [], .bytes [0x61]]).run [] = (.ok (), [0, 1]) := by
  intro machine
  constructor
  · have hreads : Reader.polls [] [.bytes [0x61, 0x62]] = "ab".toList.map .char := by
      decide +kernel
    have hfound : machine.findAll "ab" = [⟨"a", 0, 0⟩] := by
      rw [findAll_eq]
      cbv
    have hnone : ∀ p, Scan.Attempted machine.dfa "ab".toList 0 p →
        ¬Scan.TakesAll machine.dfa "ab".toList p := by
      intro p hp hall
      obtain rfl | rfl : p = 0 ∨ p = 1 := Nat.le_one_iff_eq_zero_or_eq_one.mp
        (Nat.le_of_lt_succ hp.lt)
      · cbv at hall
        cases hall
      · cbv at hall
        cases hall
    have hbefore : Read.bytes [] ∉ [Read.bytes [0x61, 0x62]] := by decide
    have hscan := (scan_behind_endOfInput machine hbefore).1 (fun text htext ↦ by
      obtain rfl : "ab" = text := String.toList_injective
        (List.map_injective_iff.mpr (fun _ _ ↦ Poll.char.inj) (hreads.symm.trans htext))
      exact hnone) [.bytes [0x61]]
    refine (congrArg (·.run []) hscan).trans ?_
    rw [scan_eq_of_polls machine _ hreads, hfound]
    rfl
  · have hreads : Reader.polls [] [.bytes [0x61]] = "a".toList.map .char := by decide +kernel
    have hfound : machine.findAll "a" = [⟨"a", 0, 0⟩] := by
      rw [findAll_eq]
      cbv
    have hlater : Scan.outcome machine.dfa 1 ("a".toList.map (@Poll.char ReadError)) =
        ⟨[⟨"a", 1, 0⟩], .ok ()⟩ := by
      cbv
    have hleast : IsLeast {p | Scan.Attempted machine.dfa "a".toList 0 p ∧
        Scan.TakesAll machine.dfa "a".toList p} 0 :=
      ⟨⟨.here (by decide), by cbv⟩, fun _ _ ↦ Nat.zero_le _⟩
    have hlongest : Scan.IsLongest machine.dfa "a".toList (some (1, 0)) :=
      Scan.isLongest_attempt machine.dfa ("a".toList.map (@Poll.char Empty))
    have hbefore : Read.bytes [] ∉ [Read.bytes [0x61]] := by decide
    have hscan := (scan_behind_endOfInput machine hbefore).2 "a" 0 _ hreads hleast hlongest
      [.bytes [0x61]]
    have hrest : ("a".toList.drop (0 + Scan.stride (some (1, 0)))).map (@Poll.char ReadError) =
        [] := by
      decide
    refine (congrArg (·.run []) hscan).trans ?_
    rw [hfound, hrest, List.nil_append, hreads, Scan.run_eq_feed,
      show 0 + Scan.stride (some (1, 0)) = 1 from rfl, hlater]
    rfl

/-- Two sequences of reads that agree up to their first read of no bytes, and that are scanned
differently by the machine of a pattern. -/
theorem build_scans_on_behind_endOfInput :
    ∃ rules : RuleSet (StateM (List Nat)), rules.patterns = ["a"] ∧
      ∃ machine, build rules = .ok machine ∧
        (machine.scan ([.bytes [0x61]] ++ .bytes [] :: [])).run [] = (.ok (), [0]) ∧
        (machine.scan ([.bytes [0x61]] ++ .bytes [] :: [.bytes [0x61]])).run [] =
          (.ok (), [0, 1]) := by
  let onA : Dfa.Transition := ⟨⟨['a'], false, by decide⟩, 1⟩
  let rules : RuleSet (StateM (List Nat)) :=
    ⟨[⟨"a", fun found ↦ (fun _ ↦ false) <$> modify (· ++ [found.offset])⟩], none⟩
  let machine : Machine (StateM (List Nat)) :=
    ⟨⟨0, #[⟨[onA], none⟩, ⟨[], some 0⟩]⟩, rules.rules⟩
  refine ⟨rules, rfl, machine, ?_, ?_, ?_⟩
  · cbv
  · have hreads : Reader.polls [] ([.bytes [0x61]] ++ .bytes [] :: []) =
        [.char 'a', .endOfInput] := by
      decide +kernel
    have houtcome : Scan.outcome machine.dfa 0 [.char 'a', .endOfInput] =
        (⟨[⟨"a", 0, 0⟩], .ok ()⟩ : Scan.Outcome ReadError) := by
      cbv
    rw [scan_eq_of_outcome machine hreads houtcome]
    rfl
  · have hreads : Reader.polls [] ([.bytes [0x61]] ++ .bytes [] :: [.bytes [0x61]]) =
        [.char 'a', .endOfInput, .char 'a'] := by
      decide +kernel
    have houtcome : Scan.outcome machine.dfa 0 [.char 'a', .endOfInput, .char 'a'] =
        (⟨[⟨"a", 0, 0⟩, ⟨"a", 1, 0⟩], .ok ()⟩ : Scan.Outcome ReadError) := by
      cbv
    rw [scan_eq_of_outcome machine hreads houtcome]
    rfl

end Machine

end RegexScan

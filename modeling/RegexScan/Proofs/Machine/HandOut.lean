import RegexScan.Proofs.Effects
import RegexScan.Proofs.Machine.Agreement
import RegexScan.Proofs.Reader.Polls

/-!
# A scan hands out what is in the text

Whether a text is there at once or comes in reads, its matches are handed out one after the other,
until an action answers true.  The actions run in any monad, so the two scans do not only find the
same matches: they are the same computation.
-/

namespace RegexScan

/-! ## Handing out -/

/-- The matches up to the first one that is answered with true, all of them if there is none, with
their answers. -/
inductive CutAtStop : List Match → List (Match × Bool) → Prop
  | nil : CutAtStop [] []
  | stop (found : Match) (later : List Match) : CutAtStop (found :: later) [(found, true)]
  | go {later : List Match} {answers : List (Match × Bool)} (found : Match) :
      CutAtStop later answers → CutAtStop (found :: later) ((found, false) :: answers)

namespace Scan

variable {m : Type → Type} [Monad m]

/-- Hand out matches until one is answered with true, and keep the answers. -/
def handOut (onMatch : Match → m Bool) : List Match → m (List (Match × Bool))
  | [] => return []
  | found :: later => do
    if ← onMatch found then return [(found, true)]
    return (found, false) :: (← handOut onMatch later)

variable [LawfulMonad m] (onMatch : Match → m Bool)

theorem always_handOut (found : List Match) :
    Always (CutAtStop found) (handOut onMatch found) := by
  induction found with
  | nil => exact always_pure .nil
  | cons found later ih =>
    refine (always_true _).bind fun stop _ ↦ ?_
    cases stop with
    | true => exact always_pure (.stop found later)
    | false =>
      simp only [Bool.false_eq_true, if_false, bind_pure_comp]
      exact ih.map fun _ ↦ .go found

/-- Whether a scan comes to its own end is seen from the answers. -/
theorem feed_eq_handOut {ε : Type} (result : Except ε Unit) (found : List Match) :
    feed onMatch result found =
      (fun answers ↦ if answers.any (·.2) then .ok () else result) <$> handOut onMatch found := by
  induction found with
  | nil =>
    rw [feed, handOut, map_pure]
    rfl
  | cons found later ih =>
    rw [feed, handOut, map_bind]
    apply bind_congr
    intro stop
    cases stop with
    | true =>
      simp only [if_true, map_pure]
      rfl
    | false =>
      simp only [Bool.false_eq_true, if_false, bind_pure_comp, Functor.map_map]
      exact ih

/-- A scan of a text hands out the matches in it, and does not fail. -/
theorem run_text {ε : Type} (dfa : Dfa Nat) (cs : List Char) :
    run dfa onMatch 0 (cs.map (@Poll.char ε)) =
      (fun _ ↦ .ok ()) <$> handOut onMatch (outcome dfa 0 (cs.map (@Poll.char Empty))).found := by
  have houtcome := outcome_text_eq ε Empty dfa cs 0
  rw [List.drop_zero] at houtcome
  simp only [run_eq_feed, houtcome, feed_eq_handOut, ite_self]

end Scan

namespace Machine

variable {m : Type → Type} [Monad m]

/-- Hand out matches to their rules. -/
def handOut (machine : Machine m) (found : List Match) : m (List (Match × Bool)) :=
  Scan.handOut machine.dispatch found

variable [LawfulMonad m] (machine : Machine m) (text : String)

theorem scanText_eq :
    machine.scanText text = (fun _ ↦ ()) <$> machine.handOut (machine.findAll text) := by
  rw [scanText, textPolls, Scan.run_text, bind_map_left, findAll_eq, map_eq_pure_bind]
  rfl

/-- Scanning reads is the scan of their polls, with a failure of the reader wrapped. -/
theorem scan_eq_map (reads : List Read) :
    machine.scan reads = Except.mapError .unreadable <$>
      Scan.run machine.dfa machine.dispatch 0 (Reader.polls [] reads) := by
  rw [scan, map_eq_pure_bind]
  apply bind_congr
  intro result
  cases result <;> rfl

/-- What a scan comes to is seen from what is in the input. -/
theorem scan_eq_of_outcome {reads : List Read} {input : List (Poll ReadError)}
    {found : List Match} {result : Except ReadError Unit} (hreads : Reader.polls [] reads = input)
    (h : Scan.outcome machine.dfa 0 input = ⟨found, result⟩) :
    machine.scan reads =
      Except.mapError .unreadable <$> Scan.feed machine.dispatch result found := by
  rw [scan_eq_map, hreads, Scan.run_eq_feed, h]

/-- Reads that decode to a text are scanned as the text is. -/
theorem scan_eq_of_polls {reads : List Read}
    (h : Reader.polls [] reads = text.toList.map .char) :
    machine.scan reads = (fun _ ↦ .ok ()) <$> machine.handOut (machine.findAll text) := by
  rw [scan, h, Scan.run_text, bind_map_left, findAll_eq, map_eq_pure_bind]
  rfl

/-- However a text is read, scanning what is read and scanning the text hand out the same matches
with the same answers: those in the text, up to the first one that is answered with true. -/
theorem scan_hands_out_findAll {reads : List Read}
    (h : Reader.Serves reads text.toUTF8.data.toList) :
    machine.scan reads = (fun _ ↦ .ok ()) <$> machine.handOut (machine.findAll text) ∧
      machine.scanText text = (fun _ ↦ ()) <$> machine.handOut (machine.findAll text) ∧
      Always (CutAtStop (machine.findAll text)) (machine.handOut (machine.findAll text)) ∧
      ∀ capacity, machine.scan (Reader.buffered capacity reads) = machine.scan reads := by
  refine ⟨scan_eq_of_polls machine text h.polls_text, scanText_eq machine text,
    Scan.always_handOut _ _, fun capacity ↦ ?_⟩
  rw [scan, scan, Reader.polls_buffered]

/-- The second match in a text stops the scan, also if a character comes in two reads. -/
theorem scan_split_character :
    let machine : Machine (StateM Nat) :=
      ⟨⟨0, #[⟨[⟨⟨['é'], false, by decide⟩, 1⟩], none⟩, ⟨[], some 0⟩]⟩,
        [⟨"é", fun _ ↦ modifyGet fun n ↦ (n == 1, n + 1)⟩]⟩
    let reads : List Read := [.bytes [0xC3], .failure ⟨.interrupted, "interrupted"⟩,
      .bytes [0xA9, 0x61, 0xC3, 0xA9, 0xC3], .bytes [0xA9]]
    (machine.findAll "éaéé").map (·.offset) = [0, 2, 3] ∧
      (machine.scan reads).run 0 = (.ok (), 2) ∧ (machine.scanText "éaéé").run 0 = ((), 2) := by
  intro machine reads
  have hfound : machine.findAll "éaéé" = [⟨"é", 0, 0⟩, ⟨"é", 2, 0⟩, ⟨"é", 3, 0⟩] := by
    rw [findAll_eq]
    cbv
  have hreads : Reader.Serves reads "éaéé".toUTF8.data.toList := by
    rw [Reader.toUTF8_toList]
    exact .bytes (by decide) (.interrupted rfl (.bytes (by decide) (.bytes (by decide) .done)))
  obtain ⟨hscan, htext, -, -⟩ := scan_hands_out_findAll machine "éaéé" hreads
  rw [hscan, htext, hfound]
  exact ⟨rfl, rfl, rfl⟩

end Machine

end RegexScan

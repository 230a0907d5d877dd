import Mathlib.Data.List.Permutation
import RegexScan.Machine.Basic
import RegexScan.Proofs.Dfa.Determinize
import RegexScan.Proofs.Machine.Attempts
import RegexScan.Proofs.Nfa.Accepted

/-!
# A machine and its trees agree

The automaton of a machine accepts a text when some tree matches it, with the index of the first
that does.  So the longest prefix that it accepts ends at the last position where some tree can
stop, and a scan goes through a text as the trees do.
-/

namespace RegexScan

/-! ## What the automaton accepts -/

namespace Dfa

/-- The automaton accepts what some tree matches, with the index of the first that does. -/
structure Recognizes (dfa : Dfa Nat) (trees : List Regex) : Prop where
  isSome_verdict_iff : ∀ w, (dfa.verdict w).isSome ↔ w ∈ (Regex.alt trees).language
  verdict_eq_some_iff : ∀ w i, dfa.verdict w = some i ↔
    IsLeast {i | ∃ r, trees[i]? = some r ∧ w ∈ r.language} i

section

variable {α : Type} [LinearOrder α] {nfa : Nfa α} {limit : Option Nat} {dfa : Dfa α}

/-- The verdict on a text is the least of the values that it is accepted with. -/
theorem verdict_eq_some_iff (hr : nfa.InRange) (h : determinize nfa limit = .ok dfa)
    (w : List Char) (a : α) : dfa.verdict w = some a ↔ IsLeast (nfa.accepted w) a := by
  rw [verdict]
  cases hs : dfa.steps dfa.start w with
  | some s => exact accepting?_eq_some_iff hr h hs a
  | none =>
    constructor
    · intro ha
      cases ha
    · rintro ⟨⟨t, ht, _⟩, _⟩
      have hsome := (isSome_steps_iff hr h).mpr ⟨t, ht⟩
      rw [hs] at hsome
      cases hsome

theorem isSome_verdict_iff (hr : nfa.InRange) (h : determinize nfa limit = .ok dfa)
    (w : List Char) : (dfa.verdict w).isSome ↔ (nfa.accepted w).Nonempty := by
  constructor
  · intro hsome
    obtain ⟨a, ha⟩ := Option.isSome_iff_exists.mp hsome
    exact ⟨a, ((verdict_eq_some_iff hr h w a).mp ha).1⟩
  · rintro ⟨a, t, ht, ha⟩
    obtain ⟨s, hs⟩ := Option.isSome_iff_exists.mp ((isSome_steps_iff hr h).mpr ⟨t, ht⟩)
    rw [verdict, hs, Option.bind_some, Option.isSome_iff_ne_none, Ne,
      accepting?_eq_none_iff hr h hs]
    exact Set.nonempty_iff_ne_empty.mp ⟨a, t, ht, ha⟩

end

/-- The deterministic automaton of numbered trees recognizes them. -/
theorem recognizes_determinize {limit : Option Nat} {dfa : Dfa Nat} {trees : List Regex}
    (h : determinize ((Nfa.initial : Nfa Nat).addRegexes trees.zipIdx) limit = .ok dfa) :
    dfa.Recognizes trees := by
  have hr := (Nfa.rooted_initial.addRegexes trees.zipIdx).toInRange
  have haccepted : ∀ w, ((Nfa.initial : Nfa Nat).addRegexes trees.zipIdx).accepted w =
      {i | ∃ r, trees[i]? = some r ∧ w ∈ r.language} := by
    intro w
    rw [Nfa.accepted_addRegexes Nfa.rooted_initial, Nfa.accepted_initial, Set.empty_union]
    simp only [List.mem_zipIdx_iff_getElem?]
  constructor
  · intro w
    rw [isSome_verdict_iff hr h, haccepted, Regex.mem_language_alt]
    constructor
    · rintro ⟨i, r, hi, hw⟩
      exact ⟨r, List.mem_of_getElem? hi, hw⟩
    · rintro ⟨r, hmem, hw⟩
      obtain ⟨i, hi⟩ := List.getElem?_of_mem hmem
      exact ⟨i, r, hi, hw⟩
  · intro w i
    rw [verdict_eq_some_iff hr h, haccepted]

end Dfa

/-! ## Scanning as the trees do -/

namespace Regex

theorem slice_eq_take_drop (text : Array Char) (i n : Nat) :
    slice text i (i + n) = (text.toList.drop i).take n := by
  rw [slice, Array.toList_extract, List.extract_eq_take_drop, Nat.add_sub_cancel_left]

theorem getLast?_eq_some_of_ascending {es : List Nat} {m : Nat} (h : es.Pairwise (· < ·))
    (hm : m ∈ es) (hmax : ∀ e ∈ es, e ≤ m) : es.getLast? = some m := by
  rcases List.eq_nil_or_concat es with rfl | ⟨init, last, rfl⟩
  · cases hm
  · rw [List.concat_eq_append] at h hm hmax ⊢
    rw [List.getLast?_concat]
    rcases List.mem_append.mp hm with hinit | hlast
    · have hlt := (List.pairwise_append.mp h).2.2 m hinit last (List.mem_singleton_self last)
      exact absurd (hmax last (by simp)) (Nat.not_le.mpr hlt)
    · rw [List.mem_singleton.mp hlast]

variable {dfa : Dfa Nat} {r : Regex} {text : Array Char}

/-- A tree can stop behind a piece of the text if it matches the piece. -/
theorem add_length_mem_ends_iff {start : Nat} {w : List Char} (hstart : start ≤ text.size)
    (hw : w <+: text.toList.drop start) :
    start + w.length ∈ r.ends text start ↔ w ∈ r.language := by
  have hle : start + w.length ≤ text.size := by
    have hlength := hw.length_le
    have hsize : text.toList.length = text.size := Array.length_toList
    rw [List.length_drop, hsize] at hlength
    omega
  rw [mem_ends_iff hstart, slice_eq_take_drop, ← List.prefix_iff_eq_take.mp hw]
  exact ⟨fun h ↦ h.2.2, fun h ↦ ⟨Nat.le_add_right .., hle, h⟩⟩

/-- The longest accepted prefix ends at the last position where the tree can stop. -/
theorem getLast?_ends {start : Nat} {longest : Option (Nat × Nat)}
    (hlanguage : ∀ w, (dfa.verdict w).isSome ↔ w ∈ r.language) (hstart : start ≤ text.size)
    (h : Scan.IsLongest dfa (text.toList.drop start) longest) :
    (r.ends text start).getLast? = longest.map (start + ·.1) := by
  have hlength : (text.toList.drop start).length = text.size - start := by
    rw [List.length_drop, Array.length_toList]
  have hmem : ∀ n, start + n ∈ r.ends text start ↔
      n ≤ (text.toList.drop start).length ∧
        (dfa.verdict ((text.toList.drop start).take n)).isSome := by
    intro n
    rw [mem_ends_iff hstart, slice_eq_take_drop, hlanguage, hlength, ← and_assoc]
    refine and_congr_left fun _ ↦ ?_
    omega
  have hge : ∀ e ∈ r.ends text start, ∃ n, e = start + n := fun e he ↦
    Nat.exists_eq_add_of_le ((mem_ends_iff hstart).mp he).1
  cases longest with
  | none =>
    rw [Option.map_none, List.getLast?_eq_none_iff, List.eq_nil_iff_forall_not_mem]
    intro e he
    obtain ⟨n, rfl⟩ := hge e he
    obtain ⟨hn, hsome⟩ := (hmem n).mp he
    rw [h n hn] at hsome
    cases hsome
  | some longest =>
    obtain ⟨n, pattern⟩ := longest
    obtain ⟨hn, hverdict, hlonger⟩ := h
    refine getLast?_eq_some_of_ascending (endsOf_ends r start hstart).ascending
      ((hmem n).mpr ⟨hn, hverdict ▸ rfl⟩) fun e he ↦ ?_
    obtain ⟨k, rfl⟩ := hge e he
    obtain ⟨hk, hsome⟩ := (hmem k).mp he
    apply Nat.add_le_add_left
    by_contra hlt
    rw [hlonger k (Nat.lt_of_not_le hlt) hk] at hsome
    cases hsome

end Regex

namespace Scan

variable {ε : Type} {dfa : Dfa Nat}

/-- From every position on, a scan and a tree find the same texts. -/
theorem found_outcome_eq_matchesFrom {r : Regex}
    (hlanguage : ∀ w, (dfa.verdict w).isSome ↔ w ∈ r.language) (text : Array Char) (start : Nat) :
    (outcome dfa start ((text.toList.drop start).map (@Poll.char ε))).found.map
      (fun found ↦ (found.offset, found.text)) = r.matchesFrom text start := by
  induction start using Regex.matchesFrom.induct r text with
  | case1 start hlt stop hstop ih =>
    obtain ⟨longest, hlongest⟩ := exists_isLongest dfa (text.toList.drop start)
    have hends := Regex.getLast?_ends hlanguage (Nat.le_of_lt hlt) hlongest
    rw [hstop] at hends
    obtain ⟨⟨n, pattern⟩, rfl, rfl⟩ := Option.map_eq_some_iff.mp hends.symm
    have hstride : start + stride (some (n, pattern)) = max (start + n) (start + 1) :=
      (Nat.add_max_add_left ..).symm
    rw [Regex.matchesFrom, if_pos hlt, hstop, outcome_text ε hlt hlongest, hstride, Outcome.after,
      List.map_append, ih]
    exact congrArg (fun w ↦ (start, String.ofList w) :: _) (Regex.slice_eq_take_drop ..).symm
  | case2 start hlt hnone ih =>
    obtain ⟨longest, hlongest⟩ := exists_isLongest dfa (text.toList.drop start)
    have hends := Regex.getLast?_ends hlanguage (Nat.le_of_lt hlt) hlongest
    rw [hnone] at hends
    obtain rfl := Option.map_eq_none_iff.mp hends.symm
    rw [Regex.matchesFrom, if_pos hlt, hnone, outcome_text ε hlt hlongest]
    exact ih
  | case3 start hge =>
    rw [Regex.matchesFrom, if_neg hge, List.drop_eq_nil_of_le (Nat.le_of_not_lt hge), List.map_nil,
      outcome, List.map_nil]

end Scan

/-! ## Machines -/

namespace Machine

variable {m : Type → Type} {rules : RuleSet m} {machine : Machine m}

/-- Adding patterns succeeds when all of them are well formed, and adds their trees
under their numbers. -/
theorem addPatterns_eq_ok_iff {nfa nfa' : Nfa Nat} {index : Nat} {patterns : List String} :
    addPatterns nfa index patterns = .ok nfa' ↔
      ∃ trees : List Regex, patterns.map Pattern.parse = trees.map .ok ∧
        nfa' = nfa.addRegexes (trees.zipIdx index) := by
  induction patterns generalizing nfa index with
  | nil =>
    rw [addPatterns, List.map_nil]
    constructor
    · intro h
      cases h
      exact ⟨[], rfl, rfl⟩
    · rintro ⟨trees, htrees, rfl⟩
      rw [List.map_eq_nil_iff.mp htrees.symm]
      rfl
  | cons p ps ih =>
    rw [addPatterns, List.map_cons]
    cases hp : Pattern.parse p with
    | error e =>
      refine ⟨nofun, ?_⟩
      rintro ⟨trees, htrees, -⟩
      cases trees <;> cases htrees
    | ok r =>
      rw [ih]
      constructor
      · rintro ⟨trees, htrees, rfl⟩
        exact ⟨r :: trees, by rw [htrees, List.map_cons], rfl⟩
      · rintro ⟨trees, htrees, rfl⟩
        cases trees with
        | nil => cases htrees
        | cons r' trees =>
          rw [List.map_cons, List.cons.injEq] at htrees
          cases htrees.1
          exact ⟨trees, htrees.2, rfl⟩

/-- Building parses the patterns and determinizes the automaton of their trees. -/
theorem build_eq_ok_iff : build rules = .ok machine ↔
    ∃ trees : List Regex, rules.patterns.map Pattern.parse = trees.map .ok ∧
      ∃ dfa, Dfa.determinize (Nfa.initial.addRegexes trees.zipIdx) rules.maxStates = .ok dfa ∧
        machine = ⟨dfa, rules.rules⟩ := by
  rw [build]
  constructor
  · intro h
    obtain ⟨nfa, hadd, h⟩ := bind_eq_ok_iff.mp h
    obtain ⟨trees, htrees, rfl⟩ := addPatterns_eq_ok_iff.mp hadd
    split at h
    · next dfa hdfa =>
      cases h
      exact ⟨trees, htrees, dfa, hdfa, rfl⟩
    · cases h
  · rintro ⟨trees, htrees, dfa, hdfa, rfl⟩
    refine bind_eq_ok_iff.mpr ⟨_, addPatterns_eq_ok_iff.mpr ⟨trees, htrees, rfl⟩, ?_⟩
    rw [hdfa]
    rfl

/-- The automaton of a machine is that of the trees of its patterns. -/
theorem build_ok (h : build rules = .ok machine) :
    ∃ trees : List Regex, rules.patterns.map Pattern.parse = trees.map .ok ∧
      machine.dfa.Recognizes trees := by
  obtain ⟨trees, htrees, dfa, hdfa, rfl⟩ := build_eq_ok_iff.mp h
  exact ⟨trees, htrees, Dfa.recognizes_determinize hdfa⟩

theorem rules_of_build (h : build rules = .ok machine) : machine.rules = rules.rules := by
  obtain ⟨_, _, _, _, rfl⟩ := build_eq_ok_iff.mp h
  rfl

/-- Rules without a limit make a machine if their patterns are well formed. -/
theorem exists_build {trees : List Regex} (hlimit : rules.maxStates = none)
    (htrees : rules.patterns.map Pattern.parse = trees.map .ok) :
    ∃ machine, build rules = .ok machine := by
  obtain ⟨dfa, hdfa⟩ := Dfa.exists_determinize (Nfa.initial.addRegexes trees.zipIdx)
  exact ⟨⟨dfa, rules.rules⟩, build_eq_ok_iff.mpr ⟨trees, htrees, dfa, hlimit ▸ hdfa, rfl⟩⟩

theorem fullMatch_eq (machine : Machine m) (text : String) :
    machine.fullMatch text = (machine.dfa.verdict text.toList).isSome := by
  rw [fullMatch, Dfa.verdict]
  cases machine.dfa.steps machine.dfa.start text.toList <;> rfl

/-- Collecting matches turns them around. -/
theorem run_feed_collect {ε : Type} (result : Except ε Unit) (later before : List Match) :
    ((Scan.feed (m := StateM (List Match)) (fun found ↦ do modify (found :: ·); return false)
      result later).run before).2 = later.reverse ++ before := by
  induction later generalizing before with
  | nil => rfl
  | cons found later ih =>
    rw [List.reverse_cons, List.append_assoc]
    exact ih (found :: before)

/-- The matches of a text are those that the scan of its characters hands out. -/
theorem findAll_eq (machine : Machine m) (text : String) :
    machine.findAll text = (Scan.outcome machine.dfa 0 (textPolls text)).found := by
  rw [findAll, Scan.run_eq_feed]
  simp only [run_feed_collect]
  rw [List.append_nil, List.reverse_reverse]

/-- A machine finds what the trees of its patterns do, and each match goes to the first pattern
whose tree can stop at its end. -/
theorem build_agrees_with_trees (h : build rules = .ok machine) :
    ∃ trees : List Regex, rules.patterns.map Pattern.parse = trees.map .ok ∧
      ∀ text : String,
        (machine.fullMatch text = true ↔ ∃ r ∈ trees, r.fullMatch text = true) ∧
          (machine.findAll text).map (fun found ↦ (found.offset, found.text)) =
            (Regex.alt trees).findAll text ∧
          ∀ found ∈ machine.findAll text,
            IsLeast {i | ∃ r, trees[i]? = some r ∧ found.offset + found.text.length ∈
              r.ends text.toList.toArray found.offset} found.pattern := by
  obtain ⟨trees, htrees, hdfa⟩ := build_ok h
  refine ⟨trees, htrees, fun text ↦ ⟨?_, ?_, ?_⟩⟩
  · rw [fullMatch_eq, hdfa.isSome_verdict_iff, Regex.mem_language_alt]
    simp only [Regex.fullMatch_iff]
  · rw [findAll_eq, Regex.findAll]
    exact Scan.found_outcome_eq_matchesFrom hdfa.isSome_verdict_iff text.toList.toArray 0
  · intro found hfound
    rw [findAll_eq] at hfound
    obtain ⟨hoffset, hprefix, hverdict⟩ :=
      Scan.of_mem_found_outcome text.toList 0 hfound
    have hends : ∀ r : Regex, found.offset + found.text.length ∈
        r.ends text.toList.toArray found.offset ↔ found.text.toList ∈ r.language := fun r ↦ by
      rw [← String.length_toList]
      exact Regex.add_length_mem_ends_iff hoffset hprefix
    simp only [hends]
    exact (hdfa.verdict_eq_some_iff _ _).mp hverdict

/-- Patterns that overlap, a star in a star and an empty match. -/
theorem build_overlapping_patterns :
    ∃ rules : RuleSet Id, rules.patterns = ["(a*)*b|c", "[^bd]|\\e"] ∧
      ∃ machine, build rules = .ok machine ∧
        machine.fullMatch "aab" = true ∧ machine.fullMatch "ca" = false ∧
        (machine.findAll "daabb").map (fun found ↦ (found.offset, found.text)) =
          [(0, ""), (1, "aab"), (4, "b")] := by
  let rules : RuleSet Id := ⟨[⟨"(a*)*b|c", fun _ ↦ false⟩, ⟨"[^bd]|\\e", fun _ ↦ false⟩], none⟩
  let trees : List Regex := [
    .alt [.seq [.star (.star (.literal 'a')), .literal 'b'], .literal 'c'],
    .alt [.set (CharSet.ofList ['b', 'd']).compl, .empty]]
  have htrees : rules.patterns.map Pattern.parse = trees.map .ok := by cbv
  obtain ⟨machine, h⟩ := exists_build rfl htrees
  obtain ⟨trees', htrees', hagree⟩ := build_agrees_with_trees h
  obtain rfl : trees = trees' := List.map_injective_iff.mpr (fun _ _ ↦ Except.ok.inj)
    (htrees.symm.trans htrees')
  refine ⟨rules, rfl, machine, h, (hagree "aab").1.mpr ?_, ?_, (hagree "daabb").2.1.trans ?_⟩
  · exact ⟨_, List.mem_cons_self, by cbv⟩
  · rw [← Bool.not_eq_true, (hagree "ca").1, ← List.any_eq_true, Bool.not_eq_true]
    cbv
  · cbv

end Machine

end RegexScan

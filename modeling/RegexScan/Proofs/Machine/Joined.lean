import RegexScan.Proofs.Machine.Agreement
import RegexScan.Proofs.Pattern.Joined

/-!
# The joined pattern of a machine

The pattern of a machine is well formed, and makes a machine that finds the same texts, as long as
no bar in it is escaped by what stands in front.
-/

namespace RegexScan.Machine

variable {m : Type → Type} {rules : RuleSet m} {machine : Machine m} {trees : List Regex}

theorem patterns_of_build (h : build rules = .ok machine) : machine.patterns = rules.patterns := by
  rw [patterns, rules_of_build h, RuleSet.patterns]

/-- The automaton of a machine is that of the trees that its patterns are known to have. -/
theorem recognizes_of_build (h : build rules = .ok machine)
    (htrees : rules.patterns.map Pattern.parse = trees.map .ok) :
    machine.dfa.Recognizes trees := by
  obtain ⟨trees', htrees', hdfa⟩ := build_ok h
  obtain rfl : trees = trees' := List.map_injective_iff.mpr (fun _ _ ↦ Except.ok.inj)
    (htrees.symm.trans htrees')
  exact hdfa

/-- Machines for one language find the same texts. -/
theorem agree_of_language {machine' : Machine m} {r : Regex}
    (h : ∀ w, (machine.dfa.verdict w).isSome ↔ w ∈ r.language)
    (h' : ∀ w, (machine'.dfa.verdict w).isSome ↔ w ∈ r.language) (text : String) :
    machine'.fullMatch text = machine.fullMatch text ∧
      (machine'.findAll text).map (fun found ↦ (found.offset, found.text)) =
        (machine.findAll text).map fun found ↦ (found.offset, found.text) := by
  constructor
  · rw [fullMatch_eq, fullMatch_eq, Bool.eq_iff_iff, h, h']
  · rw [findAll_eq, findAll_eq]
    exact (Scan.found_outcome_eq_matchesFrom h' text.toList.toArray 0).trans
      (Scan.found_outcome_eq_matchesFrom h text.toList.toArray 0).symm

/-- The pattern of a machine makes a machine.  Unless a pattern in front of a bar ends with a
backslash that escapes the bar, the two find the same texts. -/
theorem exists_buildOne_pattern (h : build rules = .ok machine) (hrules : rules.rules ≠ [])
    (action : Action m) :
    ∃ joined, buildOne machine.pattern action = .ok joined ∧
      ((∀ p ∈ machine.patterns.dropLast, Pattern.dangles p.toList = false) →
        ∀ text, joined.fullMatch text = machine.fullMatch text ∧
          (joined.findAll text).map (fun found ↦ (found.offset, found.text)) =
            (machine.findAll text).map fun found ↦ (found.offset, found.text)) := by
  obtain ⟨trees, htrees, hdfa⟩ := build_ok h
  rw [← patterns_of_build h] at htrees
  have hne : machine.patterns ≠ [] := by
    rw [patterns, rules_of_build h, Ne, List.map_eq_nil_iff]
    exact hrules
  obtain ⟨tree, htree, hlanguage⟩ := Pattern.exists_parse_intercalate hne htrees
  have htree' : (RuleSet.empty.insert machine.pattern action).patterns.map Pattern.parse =
      [tree].map .ok := congrArg ([·]) htree
  obtain ⟨joined, hjoined⟩ := exists_build rfl htree'
  refine ⟨joined, hjoined, fun hdangles ↦ ?_⟩
  refine agree_of_language hdfa.isSome_verdict_iff fun w ↦ ?_
  rw [(recognizes_of_build hjoined htree').isSome_verdict_iff, ← hlanguage hdangles,
    Regex.mem_language_alt]
  simp only [List.mem_singleton, exists_eq_left]

/-- A hollow alternative and a backslash that is escaped stand in front of bars, and only the last
pattern ends with one that is not. -/
theorem exists_buildOne_hollow :
    ∃ rules : RuleSet Id, rules.patterns = ["a|", "b\\\\", "c\\"] ∧
      ∃ machine joined : Machine Id, build rules = .ok machine ∧ machine.pattern = "a||b\\\\|c\\" ∧
        buildOne machine.pattern (fun _ ↦ true) = .ok joined ∧
        ∀ text, joined.fullMatch text = machine.fullMatch text := by
  let rules : RuleSet Id :=
    ⟨["a|", "b\\\\", "c\\"].map fun pattern ↦ ⟨pattern, fun _ ↦ false⟩, none⟩
  let trees : List Regex :=
    [.alt [.literal 'a', .empty], .seq [.literal 'b', .literal '\\'], .literal 'c']
  have htrees : rules.patterns.map Pattern.parse = trees.map .ok := by cbv
  obtain ⟨machine, h⟩ := exists_build rfl htrees
  have hpatterns : machine.patterns = rules.patterns := patterns_of_build h
  obtain ⟨joined, hjoined, hagree⟩ :=
    exists_buildOne_pattern h (List.cons_ne_nil _ _) fun _ ↦ true
  refine ⟨rules, rfl, machine, joined, h, ?_, hjoined, fun text ↦ (hagree ?_ text).1⟩
  · rw [pattern, hpatterns]
    rfl
  · rw [hpatterns]
    decide

/-- A machine matches a text when one of the trees of its rules does. -/
theorem fullMatch_iff_of_build (h : build rules = .ok machine)
    (htrees : rules.patterns.map Pattern.parse = trees.map .ok) (text : String) :
    machine.fullMatch text = true ↔ ∃ r ∈ trees, r.fullMatch text = true := by
  rw [fullMatch_eq, (recognizes_of_build h htrees).isSome_verdict_iff, Regex.mem_language_alt]
  simp only [Regex.fullMatch_iff]

/-- If the first of two patterns ends with a backslash that is not escaped, it escapes the bar that
joins them. -/
theorem buildOne_escaped_bar :
    ∃ rules : RuleSet Id, rules.patterns = ["a\\", "b"] ∧
      ∃ machine joined : Machine Id, build rules = .ok machine ∧
        buildOne machine.pattern (fun _ ↦ false) = .ok joined ∧
        machine.fullMatch "b" = true ∧ joined.fullMatch "b" = false := by
  let rules : RuleSet Id := ⟨["a\\", "b"].map fun pattern ↦ ⟨pattern, fun _ ↦ false⟩, none⟩
  have htrees : rules.patterns.map Pattern.parse = [.literal 'a', .literal 'b'].map .ok := by cbv
  obtain ⟨machine, h⟩ := exists_build rfl htrees
  let rules' : RuleSet Id := RuleSet.empty.insert machine.pattern fun _ ↦ false
  have hpattern : machine.pattern = "a\\|b" := by
    rw [pattern, patterns_of_build h]
    rfl
  have htree : rules'.patterns.map Pattern.parse =
      [.seq [.literal 'a', .literal '|', .literal 'b']].map .ok := by
    change [Pattern.parse machine.pattern] = _
    rw [hpattern]
    cbv
  obtain ⟨joined, hjoined⟩ := exists_build rfl htree
  refine ⟨rules, rfl, machine, joined, h, hjoined, ?_, ?_⟩
  · rw [fullMatch_iff_of_build h htrees]
    exact ⟨.literal 'b', List.mem_cons_of_mem _ List.mem_cons_self, by cbv⟩
  · rw [← Bool.not_eq_true, fullMatch_iff_of_build hjoined htree, ← List.any_eq_true,
      Bool.not_eq_true]
    cbv

end RegexScan.Machine

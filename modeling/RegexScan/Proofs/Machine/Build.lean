import RegexScan.Proofs.Dfa.Limit
import RegexScan.Proofs.Machine.Agreement

/-!
# What a build comes to

The patterns are looked at first, in the order of the rules, and the states are counted only when
all of them are well formed.  A machine under a limit is the one without a limit.
-/

namespace RegexScan

namespace Machine

/-- Whether a pattern is not well formed. -/
def malformed (pattern : String) : Bool := !(Pattern.parse pattern).isOk

section

variable {patterns : List String} {p : String}

theorem malformed_of_error {e : Pattern.ParseError} (h : Pattern.parse p = .error e) :
    malformed p = true := by
  rw [malformed, h]
  rfl

theorem not_malformed_of_ok {r : Regex} (h : Pattern.parse p = .ok r) : ¬malformed p = true := by
  rw [malformed, h]
  exact Bool.false_ne_true

/-- Patterns are added up to the first one that is not well formed. -/
theorem addPatterns_of_find?_eq_some (h : patterns.find? malformed = some p) :
    ∃ e, Pattern.parse p = .error e ∧
      ∀ nfa index, addPatterns nfa index patterns = .error (.badPattern p e) := by
  induction patterns with
  | nil => cases h
  | cons q qs ih =>
    cases hq : Pattern.parse q with
    | error e =>
      rw [List.find?_cons_of_pos (malformed_of_error hq)] at h
      obtain rfl := Option.some.inj h
      refine ⟨e, hq, fun nfa index ↦ ?_⟩
      rw [addPatterns, hq]
    | ok r =>
      rw [List.find?_cons_of_neg (not_malformed_of_ok hq)] at h
      obtain ⟨e, hp, hadd⟩ := ih h
      refine ⟨e, hp, fun nfa index ↦ ?_⟩
      rw [addPatterns, hq]
      exact hadd _ _

/-- If no pattern is malformed all of them have trees. -/
theorem exists_trees_of_find?_eq_none (h : patterns.find? malformed = none) :
    ∃ trees : List Regex, patterns.map Pattern.parse = trees.map .ok := by
  induction patterns with
  | nil => exact ⟨[], rfl⟩
  | cons q qs ih =>
    cases hq : Pattern.parse q with
    | error e =>
      rw [List.find?_cons_of_pos (malformed_of_error hq)] at h
      cases h
    | ok r =>
      rw [List.find?_cons_of_neg (not_malformed_of_ok hq)] at h
      obtain ⟨trees, htrees⟩ := ih h
      refine ⟨r :: trees, ?_⟩
      rw [List.map_cons, List.map_cons, hq, htrees]

end

variable {m : Type → Type} {rules : RuleSet m}

/-- Building well-formed patterns is determinizing the automaton of their trees. -/
theorem build_eq_of_trees {trees : List Regex}
    (h : rules.patterns.map Pattern.parse = trees.map .ok) :
    build rules =
      match Dfa.determinize (Nfa.initial.addRegexes trees.zipIdx) rules.maxStates with
      | .ok dfa => .ok ⟨dfa, rules.rules⟩
      | .error e => .error (.tooManyStates e) := by
  rw [build, addPatterns_eq_ok_iff.mpr ⟨trees, h, rfl⟩]
  rfl

/-- A build fails at the first pattern that is not well formed, whatever the limit is and whatever
comes behind.  If there is none, it fails when there is a limit and the machine without a limit has
more states, and else it makes that machine. -/
theorem build_decides_in_order (rules : RuleSet m) :
    match rules.patterns.find? malformed with
    | some p => ∃ e, Pattern.parse p = .error e ∧
        ∀ limit, build { rules with maxStates := limit } = .error (.badPattern p e)
    | none => ∃ unlimited, build { rules with maxStates := none } = .ok unlimited ∧
        build rules = match rules.maxStates with
          | some n =>
            if n < unlimited.stateCount then .error (.tooManyStates ⟨n⟩) else .ok unlimited
          | none => .ok unlimited := by
  split
  · next p hp =>
    obtain ⟨e, hparse, hadd⟩ := addPatterns_of_find?_eq_some hp
    refine ⟨e, hparse, fun limit ↦ ?_⟩
    have hbuild : addPatterns .initial 0 { rules with maxStates := limit }.patterns =
        .error (.badPattern p e) := hadd .initial 0
    rw [build, hbuild]
    rfl
  · next hnone =>
    obtain ⟨trees, htrees⟩ := exists_trees_of_find?_eq_none hnone
    obtain ⟨dfa, hdfa⟩ := Dfa.exists_determinize (Nfa.initial.addRegexes trees.zipIdx)
    refine ⟨⟨dfa, rules.rules⟩, build_eq_ok_iff.mpr ⟨trees, htrees, dfa, hdfa, rfl⟩, ?_⟩
    rw [build_eq_of_trees htrees]
    cases rules.maxStates with
    | none => rw [hdfa]
    | some n =>
      change _ = if n < dfa.size then _ else _
      rw [Dfa.determinize_eq_within hdfa]
      by_cases hlt : n < dfa.size
      · rw [Dfa.within_of_lt hlt, if_pos hlt]
      · rw [Dfa.within_of_le (Nat.le_of_not_lt hlt), if_neg hlt]

/-- The limit would not be met either, but it is not come to. -/
example : build (m := Id) ⟨["ab", "a(b", "["].map fun pattern ↦ ⟨pattern, fun _ ↦ false⟩, some 0⟩ =
    .error (.badPattern "a(b" (.unclosedGroup 1 ⟨.endOfPattern, 3⟩)) := by
  cbv

example : build (m := Id) ⟨[⟨"ab", fun _ ↦ false⟩], some 2⟩ = .error (.tooManyStates ⟨2⟩) := by
  cbv

end Machine

end RegexScan

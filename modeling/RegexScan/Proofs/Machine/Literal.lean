import RegexScan.Proofs.Machine.Joined
import RegexScan.Proofs.Pattern.Written

/-!
# Text taken literally

A backslash in front of every character that could mean something else makes a pattern of a text,
and the machine of that pattern matches this text and no other.
-/

namespace RegexScan

/-! ## Patterns for a text -/

namespace Pattern

/-- The pattern that takes a text literally. -/
def literally (t : String) : String := String.ofList (t.toList.flatMap escape)

/-- Literal tokens derive a sequence of literals. -/
theorem isReps_map_char (cs : List Char) : IsReps (cs.map .char) (cs.map .literal) := by
  induction cs with
  | nil => exact .nil
  | cons c cs ih => exact .cons (.once (.literal (.char c))) ih

/-- Literal tokens, if there is one, derive an expression. -/
theorem isExpr_map_char {cs : List Char} (h : cs ≠ []) :
    IsExpr (cs.map .char) (ofTerms (cs.map .literal)) := by
  have hne : cs.map Regex.literal ≠ [] := fun hnil ↦ h (List.map_eq_nil_iff.mp hnil)
  have hexpr := IsExpr.branches (isReps_map_char cs) hne .nil
  rwa [List.append_nil] at hexpr

/-- A text with its operators escaped parses to its literals. -/
theorem parse_literally {t : String} (h : t ≠ "") :
    parse (literally t) = .ok (ofTerms (t.toList.map .literal)) := by
  rw [parse_eq_ok_iff, literally, String.toList_ofList, (spells_flatMap_escape t.toList).kinds_eq]
  exact isExpr_map_char fun hnil ↦ h (String.toList_eq_nil_iff.mp hnil)

end Pattern

/-! ## What they match -/

namespace Regex

theorem language_literal (c : Char) : (literal c).language = {[c]} := by
  ext w
  rw [literal, mem_language_set]
  simp only [CharSet.mem_singleton, exists_eq_left]
  rfl

theorem languageOfSeq_map_literal (cs : List Char) : languageOfSeq (cs.map literal) = {cs} := by
  induction cs with
  | nil => rfl
  | cons c cs ih =>
    rw [List.map_cons, languageOfSeq, ih, language_literal]
    exact Set.image2_singleton

end Regex

/-! ## The machine of a text -/

namespace Machine

variable {m : Type → Type}

/-- A text that is taken literally is read as its characters one after the other, and the machine
matches the text and nothing else. -/
theorem buildOne_literally {t : String} (h : t ≠ "") (action : Action m) :
    (∀ c, t.toList = [c] → Pattern.parse (Pattern.literally t) = .ok (.literal c)) ∧
      (2 ≤ t.length →
        Pattern.parse (Pattern.literally t) = .ok (.seq (t.toList.map .literal))) ∧
      ∃ machine, buildOne (Pattern.literally t) action = .ok machine ∧
        ∀ u, machine.fullMatch u = true ↔ u = t := by
  have hparse := Pattern.parse_literally h
  refine ⟨fun c hc ↦ ?_, fun hlength ↦ ?_, ?_⟩
  · rw [hparse, hc]
    rfl
  · rw [hparse, Pattern.ofTerms_of_two_le]
    rwa [List.length_map, String.length_toList]
  · have htrees : (RuleSet.empty.insert (Pattern.literally t) action).patterns.map Pattern.parse =
        [Pattern.ofTerms (t.toList.map .literal)].map .ok := congrArg ([·]) hparse
    obtain ⟨machine, hbuild⟩ := exists_build rfl htrees
    refine ⟨machine, hbuild, fun u ↦ ?_⟩
    rw [fullMatch_eq, (recognizes_of_build hbuild htrees).isSome_verdict_iff,
      Regex.mem_language_alt]
    simp only [List.mem_singleton, exists_eq_left, Pattern.language_ofTerms,
      Regex.languageOfSeq_map_literal]
    exact String.toList_inj

/-- Backslashes in front of a letter, at the end and in front of an operator. -/
theorem buildOne_literally_backslashes :
    "\\n\\-\\" ≠ "" ∧ Pattern.literally "\\n\\-\\" = "\\\\n\\\\\\-\\\\" ∧
      ∃ machine : Machine Id,
        buildOne "\\\\n\\\\\\-\\\\" (fun _ ↦ false) = .ok machine ∧
        machine.fullMatch "\\n\\-\\" = true ∧ machine.fullMatch "\n-\\" = false := by
  have hne : "\\n\\-\\" ≠ "" := by decide
  have hliterally : Pattern.literally "\\n\\-\\" = "\\\\n\\\\\\-\\\\" := by cbv
  obtain ⟨-, -, machine, hbuild, hmatch⟩ :=
    buildOne_literally hne (m := Id) (fun _ ↦ false)
  rw [hliterally] at hbuild
  refine ⟨hne, hliterally, machine, hbuild, (hmatch _).mpr rfl, ?_⟩
  rw [← Bool.not_eq_true, hmatch]
  decide

end Machine

end RegexScan

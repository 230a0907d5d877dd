import Mathlib.Computability.Language
import Mathlib.Order.CompletePartialOrder
import RegexScan.Regex.Basic

/-!
# What an expression matches

Every tree denotes a language: a sequence the concatenation of its terms, an alternation the union
of its branches, a star the Kleene closure of its body.  The automata and the matcher on trees are
both measured against it.
-/

namespace RegexScan.Regex

open scoped Computability

mutual

/-- The texts that an expression matches. -/
def language : Regex → Language Char
  | .seq rs => languageOfSeq rs
  | .alt rs => languageOfAlt rs
  | .star r => r.language∗
  | .set s => {w | ∃ c ∈ s, w = [c]}
  | .empty => 1

/-- The texts that expressions match one after the other. -/
def languageOfSeq : List Regex → Language Char
  | [] => 1
  | r :: rs => r.language * languageOfSeq rs

/-- The texts that some of the expressions matches. -/
def languageOfAlt : List Regex → Language Char
  | [] => 0
  | r :: rs => r.language + languageOfAlt rs

end

/-- Alternatives match the sum of their languages. -/
theorem languageOfAlt_eq_sum (rs : List Regex) : languageOfAlt rs = (rs.map language).sum := by
  induction rs with
  | nil => rfl
  | cons r rs ih => rw [languageOfAlt, ih, List.map_cons, List.sum_cons]

/-- Alternatives beside others match the sum of both. -/
theorem languageOfAlt_append (rs ss : List Regex) :
    languageOfAlt (rs ++ ss) = languageOfAlt rs + languageOfAlt ss := by
  simp only [languageOfAlt_eq_sum, List.map_append, List.sum_append]

/-- Alternatives match what one of them matches. -/
theorem mem_languageOfAlt {rs : List Regex} {w : List Char} :
    w ∈ languageOfAlt rs ↔ ∃ r ∈ rs, w ∈ r.language := by
  induction rs with
  | nil => simp [languageOfAlt]
  | cons r rs ih => rw [languageOfAlt, Language.mem_add, ih, List.exists_mem_cons_iff]

theorem mem_language_alt {rs : List Regex} {w : List Char} :
    w ∈ (Regex.alt rs).language ↔ ∃ r ∈ rs, w ∈ r.language := by
  rw [language, mem_languageOfAlt]

theorem mem_language_set {s : CharSet} {w : List Char} :
    w ∈ (Regex.set s).language ↔ ∃ c ∈ s, w = [c] := by
  rw [language]
  rfl

end RegexScan.Regex

import Mathlib.Data.List.Sort
import RegexScan.CharSet.Basic

/-!
# Sets with the same members are equal

Items stand in ascending order and none twice, so sets of one sign can be compared by their
members.
-/

namespace RegexScan.CharSet

/-- Sets of one sign with the same characters are the same set. -/
theorem eq_of_mem_iff {s t : CharSet} (hsign : s.negated = t.negated)
    (h : ∀ c, c ∈ s ↔ c ∈ t) : s = t := by
  have hitems : s.items = t.items := by
    apply s.ascending.eq_of_mem_iff t.ascending
    intro c
    have hc := h c
    rw [mem_iff, mem_iff, hsign] at hc
    cases ht : t.negated with
    | false => simpa only [ht, iff_true] using hc
    | true => simpa only [ht, Bool.true_eq_false, iff_false, not_iff_not] using hc
  obtain ⟨items, negated, hs⟩ := s
  obtain ⟨items', negated', ht⟩ := t
  subst hitems hsign
  rfl

/-- A union is negated as soon as one of its sides is. -/
theorem negated_union (s t : CharSet) : (s ∪ t).negated = (s.negated || t.negated) := by
  change (union s t).negated = _
  unfold union
  split <;> next hs ht => rw [hs, ht]; rfl

theorem empty_eq_ofList : empty = ofList [] := by
  refine eq_of_mem_iff rfl ?_
  intro c
  simp only [not_mem_empty, mem_ofList, List.not_mem_nil]

theorem singleton_eq_ofList (c : Char) : singleton c = ofList [c] := by
  refine eq_of_mem_iff rfl ?_
  intro d
  rw [mem_singleton, mem_ofList, List.mem_singleton]

/-- A positive set is made again by its items. -/
theorem eq_ofList_items {s : CharSet} (h : s.negated = false) : s = ofList s.items := by
  apply eq_of_mem_iff h
  intro c
  rw [mem_iff, h, mem_ofList, iff_true_right rfl]

/-- A negated set is the complement of the set of its items. -/
theorem eq_compl_ofList_items {s : CharSet} (h : s.negated = true) :
    s = (ofList s.items).compl := by
  apply eq_of_mem_iff h
  intro c
  rw [mem_iff, h, mem_compl, mem_ofList]
  simp only [Bool.true_eq_false, iff_false]

theorem negated_range (c d : Char) : (range c d).negated = false := by
  unfold range
  split <;> rfl

theorem ofList_union_ofList (cs ds : List Char) : ofList cs ∪ ofList ds = ofList (cs ++ ds) := by
  apply eq_of_mem_iff
  · rw [negated_union]
    rfl
  · intro c
    rw [mem_union, mem_ofList, mem_ofList, mem_ofList, List.mem_append]

theorem union_empty (s : CharSet) : s ∪ ofList [] = s := by
  apply eq_of_mem_iff
  · rw [negated_union]
    exact Bool.or_false _
  · intro c
    rw [mem_union, mem_ofList, or_iff_left List.not_mem_nil]

/-- Union is associative, on the representation and not only up to membership. -/
theorem union_assoc (s t u : CharSet) : s ∪ t ∪ u = s ∪ (t ∪ u) := by
  apply eq_of_mem_iff
  · rw [negated_union, negated_union, negated_union, negated_union, Bool.or_assoc]
  · intro c
    rw [mem_union, mem_union, mem_union, mem_union, or_assoc]

end RegexScan.CharSet

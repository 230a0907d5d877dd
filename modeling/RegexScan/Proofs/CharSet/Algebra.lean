import Mathlib.Data.Char
import Mathlib.Order.Lattice
import RegexScan.CharSet.Basic

/-!
# The algebra of sets is that of their members

Whatever the signs of two sets are, the characters in a set made from them are decided one by one,
by the Boolean operation of the same name.
-/

namespace RegexScan.CharSet

variable (s t : CharSet) (a b c : Char) (cs : List Char)

/-- The test by search decides membership. -/
theorem contains_eq_decide : s.contains c = decide (c ∈ s) :=
  Bool.decide_eq_true.symm

theorem contains_inter : (s ∩ t).contains c = (s.contains c && t.contains c) := by
  simp only [contains_eq_decide, mem_inter, Bool.decide_and]

theorem contains_union : (s ∪ t).contains c = (s.contains c || t.contains c) := by
  simp only [contains_eq_decide, mem_union, Bool.decide_or]

theorem contains_sdiff : (s \ t).contains c = (s.contains c && !t.contains c) := by
  simp only [contains_eq_decide, mem_sdiff, Bool.decide_and, decide_not]

/-- The complement holds exactly what the set does not. -/
theorem contains_compl : s.compl.contains c = !s.contains c := by
  simp only [contains_eq_decide, mem_compl, decide_not]

/-- The bounds of a range may come in either order. -/
theorem contains_range : (range a b).contains c = decide (min a b ≤ c ∧ c ≤ max a b) := by
  rw [contains_eq_decide, decide_eq_decide, mem_range]
  rcases le_total a b with h | h
  · rw [min_eq_left h, max_eq_right h, or_iff_left_iff_imp]
    rintro ⟨hb, ha⟩
    exact ⟨le_trans h hb, le_trans ha h⟩
  · rw [min_eq_right h, max_eq_left h, or_iff_right_iff_imp]
    rintro ⟨ha, hb⟩
    exact ⟨le_trans h ha, le_trans hb h⟩

variable {a c} in
/-- No character comes behind U+10FFFF. -/
theorem mem_range_last (h : a ≤ c) : c ∈ range a (Char.ofNat 0x10FFFF) := by
  have hvalid : c.toNat.isValidChar := c.valid
  refine mem_range.mpr (.inl ⟨h, ?_⟩)
  change c.toNat ≤ 0x10FFFF
  rcases hvalid with hlt | ⟨-, hlt⟩ <;> omega

/-- A set made from a list holds the characters of the list. -/
theorem contains_ofList : (ofList cs).contains c = decide (c ∈ cs) := by
  rw [contains_eq_decide, decide_eq_decide]
  exact mem_ofList

/-- Every set, however it was made, holds the characters that its construction says: the operations
are those of the Boolean algebra of characters, a range lists what lies between its bounds, and a
list of items may be in any order and repeat some. -/
theorem contains_boolean_algebra :
    (s ∩ t).contains c = (s.contains c && t.contains c) ∧
      (s ∪ t).contains c = (s.contains c || t.contains c) ∧
      (s \ t).contains c = (s.contains c && !t.contains c) ∧
      s.compl.contains c = !s.contains c ∧
      empty.contains c = false ∧ full.contains c = true ∧
      (singleton a).contains c = decide (c = a) ∧
      (range a b).contains c = decide (min a b ≤ c ∧ c ≤ max a b) ∧
      (ofList cs).contains c = decide (c ∈ cs) ∧
      (ofList cs).compl.contains c = !decide (c ∈ cs) := by
  refine ⟨contains_inter s t c, contains_union s t c, contains_sdiff s t c, contains_compl s c,
    ?_, ?_, ?_, contains_range a b c, contains_ofList c cs, ?_⟩
  · simp only [contains_eq_decide, not_mem_empty, decide_false]
  · simp only [contains_eq_decide, mem_full, decide_true]
  · simp only [contains_eq_decide, mem_singleton]
  · rw [contains_compl, contains_ofList]

/-- Two complements that leave out different characters, a range with its bounds swapped and a list
with a repeated item. -/
example : ((range 'c' 'a').compl \ (ofList ['x', 'b', 'x']).compl).contains 'x' = true ∧
    ((range 'c' 'a').compl \ (ofList ['x', 'b', 'x']).compl).contains 'b' = false := by
  cbv

end RegexScan.CharSet

import RegexScan.Ascending
import RegexScan.Text.Quoted

/-!
# Sets of characters

A set is a finite list of characters or the complement of one, and the list is strictly ascending,
so two sets of one sign are equal as soon as they have the same members.  The main statements say
what membership in each constructed set means.
-/

namespace RegexScan

/-- The characters listed, or with `negated` all the others. -/
structure CharSet where
  items : List Char
  negated : Bool
  ascending : items.Pairwise (· < ·)
deriving DecidableEq

namespace CharSet

/-- The members of a list of characters, in any order and with repetitions. -/
def ofList (cs : List Char) : CharSet :=
  ⟨Ascending.ofList cs, false, Ascending.pairwise_ofList cs⟩

/-- No character. -/
def empty : CharSet := ⟨[], false, .nil⟩

/-- Every character, as the complement of nothing. -/
def full : CharSet := ⟨[], true, .nil⟩

/-- One character. -/
def singleton (c : Char) : CharSet := ⟨[c], false, List.pairwise_singleton _ c⟩

/-- The characters that are not in the set. -/
def compl (s : CharSet) : CharSet := { s with negated := !s.negated }

/-- The character with a code point; none has the code point of a surrogate. -/
def charOfNat? (n : Nat) : Option Char :=
  if n.isValidChar then some (Char.ofNat n) else none

private theorem toNat_ofNat {n : Nat} (h : n.isValidChar) : (Char.ofNat n).toNat = n := by
  unfold Char.ofNat
  rw [dif_pos h]
  rfl

/-- A character is found by its code point, and by no other one. -/
theorem charOfNat?_eq_some_iff {n : Nat} {c : Char} : charOfNat? n = some c ↔ c.toNat = n := by
  unfold charOfNat?
  constructor
  · intro h
    by_cases hn : n.isValidChar
    · rw [if_pos hn] at h
      cases h
      exact toNat_ofNat hn
    · rw [if_neg hn] at h
      cases h
  · rintro rfl
    have hc : c.toNat.isValidChar := c.valid
    rw [if_pos hc, Char.ofNat_toNat]

/-- The characters between two, both included, ascending. -/
def charsBetween (lo hi : Char) : List Char :=
  (List.range' lo.toNat (hi.toNat + 1 - lo.toNat)).filterMap charOfNat?

/-- The surrogates are skipped, and no character is. -/
theorem mem_charsBetween {lo hi c : Char} : c ∈ charsBetween lo hi ↔ lo ≤ c ∧ c ≤ hi := by
  simp only [charsBetween, List.mem_filterMap, List.mem_range'_1, charOfNat?_eq_some_iff]
  have hle : ∀ a b : Char, a ≤ b ↔ a.toNat ≤ b.toNat := fun _ _ ↦ Iff.rfl
  rw [hle, hle]
  constructor
  · rintro ⟨n, hn, rfl⟩
    omega
  · intro hbetween
    exact ⟨c.toNat, by omega, rfl⟩

/-- Characters are ordered as their code points are. -/
theorem pairwise_charsBetween (lo hi : Char) : (charsBetween lo hi).Pairwise (· < ·) := by
  refine List.pairwise_filterMap.mpr ((List.pairwise_lt_range' 1).imp ?_)
  intro m n hlt a ha b hb
  rw [charOfNat?_eq_some_iff] at ha hb
  change a.toNat < b.toNat
  omega

/-- The characters between two bounds, both included; the bounds may come in either order. -/
def range (a b : Char) : CharSet :=
  if a ≤ b then ⟨charsBetween a b, false, pairwise_charsBetween a b⟩
  else ⟨charsBetween b a, false, pairwise_charsBetween b a⟩

/-- Whether nothing is listed and nothing else is meant.  A complement never counts as empty, even
if it leaves no character. -/
def isEmpty (s : CharSet) : Bool := !s.negated && s.items.isEmpty

/-- Whether everything but nothing is meant.  Nor does a set that lists every character
count as full. -/
def isFull (s : CharSet) : Bool := s.negated && s.items.isEmpty

/-- A character is in the set if it is listed, or if it is not and the set is negated. -/
def contains (s : CharSet) (c : Char) : Bool := Ascending.mem c s.items != s.negated

instance : Membership Char CharSet := ⟨fun s c ↦ s.contains c = true⟩

instance (c : Char) (s : CharSet) : Decidable (c ∈ s) := inferInstanceAs (Decidable (_ = true))

private def listUnion (s t : CharSet) (negated : Bool) : CharSet :=
  ⟨Ascending.union s.items t.items, negated, Ascending.pairwise_union s.ascending t.ascending⟩

private def listInter (s t : CharSet) (negated : Bool) : CharSet :=
  ⟨Ascending.inter s.items t.items, negated, Ascending.pairwise_inter s.ascending t.ascending⟩

private def listDiff (s t : CharSet) (negated : Bool) : CharSet :=
  ⟨Ascending.diff s.items t.items, negated, Ascending.pairwise_diff s.ascending t.ascending⟩

/-- The characters of both sets.  Of two complements it is the complement of what either
leaves out. -/
def inter (s t : CharSet) : CharSet :=
  match s.negated, t.negated with
  | false, false => listInter s t false
  | false, true => listDiff s t false
  | true, false => listDiff t s false
  | true, true => listUnion s t true

/-- The characters of one of two sets.  A complement among them makes the union one. -/
def union (s t : CharSet) : CharSet :=
  match s.negated, t.negated with
  | false, false => listUnion s t false
  | false, true => listDiff t s true
  | true, false => listDiff s t true
  | true, true => listInter s t true

/-- The characters of the first set that are not in the second. -/
def diff (s t : CharSet) : CharSet :=
  match s.negated, t.negated with
  | false, false => listDiff s t false
  | false, true => listInter s t false
  | true, false => listUnion s t true
  | true, true => listDiff t s false

instance : Inter CharSet := ⟨inter⟩
instance : Union CharSet := ⟨union⟩
instance : SDiff CharSet := ⟨diff⟩

section

variable {s t : CharSet} {a b c : Char}

/-- A set has what it lists, and a complement what it does not list. -/
theorem mem_iff : c ∈ s ↔ (c ∈ s.items ↔ s.negated = false) := by
  change s.contains c = true ↔ _
  rw [contains, Ascending.mem_eq_contains s.ascending]
  cases s.negated with
  | false => rw [Bool.bne_false, List.contains_iff_mem, iff_true_right rfl]
  | true => rw [Bool.bne_true, Bool.not_eq_true', ← Bool.not_eq_true, List.contains_iff_mem,
      iff_false_right Bool.false_ne_true.symm]

/-- A positive set holds its items. -/
theorem mem_iff_mem_items (h : s.negated = false) : c ∈ s ↔ c ∈ s.items := by
  rw [mem_iff, iff_true_right h]

/-- A negated set holds all but its items. -/
theorem mem_iff_not_mem_items (h : s.negated = true) : c ∈ s ↔ c ∉ s.items := by
  rw [mem_iff, iff_false_right ((Bool.not_eq_false _).mpr h)]

/-- The order of the list and its repetitions do not matter. -/
@[simp] theorem mem_ofList {cs : List Char} : c ∈ ofList cs ↔ c ∈ cs := by
  rw [mem_iff_mem_items rfl, ofList, Ascending.mem_ofList]

@[simp] theorem not_mem_empty (c : Char) : c ∉ empty := by
  rw [mem_iff_mem_items rfl]
  exact List.not_mem_nil

@[simp] theorem mem_full (c : Char) : c ∈ full := by
  rw [mem_iff_not_mem_items rfl]
  exact List.not_mem_nil

/-- A singleton holds its character and no other. -/
@[simp] theorem mem_singleton {d : Char} : c ∈ singleton d ↔ c = d := by
  rw [mem_iff_mem_items rfl, singleton, List.mem_singleton]

/-- A complement has all other characters. -/
@[simp] theorem mem_compl : c ∈ s.compl ↔ c ∉ s := by
  cases hs : s.negated with
  | false =>
    have hcompl : s.compl.negated = true := congrArg not hs
    rw [mem_iff_not_mem_items hcompl, mem_iff_mem_items hs, compl]
  | true =>
    have hcompl : s.compl.negated = false := congrArg not hs
    rw [mem_iff_mem_items hcompl, mem_iff_not_mem_items hs, compl, Classical.not_not]

/-- A range has the characters between its bounds, in whichever order the bounds come. -/
theorem mem_range : c ∈ range a b ↔ (a ≤ c ∧ c ≤ b) ∨ (b ≤ c ∧ c ≤ a) := by
  unfold range
  split
  · next hab =>
    rw [mem_iff_mem_items rfl, mem_charsBetween]
    refine ⟨.inl, ?_⟩
    rintro (hc | ⟨hbc, hca⟩)
    · exact hc
    · exact ⟨Std.le_trans hab hbc, Std.le_trans hca hab⟩
  · next hab =>
    have hba : b ≤ a := Std.le_total.resolve_left hab
    rw [mem_iff_mem_items rfl, mem_charsBetween]
    refine ⟨.inr, ?_⟩
    rintro (⟨hac, hcb⟩ | hc)
    · exact ⟨Std.le_trans hba hac, Std.le_trans hcb hba⟩
    · exact hc

/-! ## Signs

What is to be done with the lists depends on the signs of both sets. -/

variable {n : Bool}

private theorem mem_items_listUnion :
    c ∈ (listUnion s t n).items ↔ c ∈ s.items ∨ c ∈ t.items :=
  Ascending.mem_union

private theorem mem_items_listInter :
    c ∈ (listInter s t n).items ↔ c ∈ s.items ∧ c ∈ t.items :=
  Ascending.mem_inter s.ascending t.ascending

private theorem mem_items_listDiff :
    c ∈ (listDiff s t n).items ↔ c ∈ s.items ∧ c ∉ t.items :=
  Ascending.mem_diff s.ascending t.ascending

/-- An intersection has what both sets have. -/
@[simp] theorem mem_inter : c ∈ s ∩ t ↔ c ∈ s ∧ c ∈ t := by
  change c ∈ inter s t ↔ _
  unfold inter
  split
  · next hs ht =>
    rw [mem_iff_mem_items rfl, mem_items_listInter, mem_iff_mem_items hs, mem_iff_mem_items ht]
  · next hs ht =>
    rw [mem_iff_mem_items rfl, mem_items_listDiff, mem_iff_mem_items hs, mem_iff_not_mem_items ht]
  · next hs ht =>
    rw [mem_iff_mem_items rfl, mem_items_listDiff, mem_iff_not_mem_items hs,
      mem_iff_mem_items ht, and_comm]
  · next hs ht =>
    rw [mem_iff_not_mem_items rfl, mem_items_listUnion, mem_iff_not_mem_items hs,
      mem_iff_not_mem_items ht, not_or]

/-- A union has what either set has. -/
@[simp] theorem mem_union : c ∈ s ∪ t ↔ c ∈ s ∨ c ∈ t := by
  change c ∈ union s t ↔ _
  unfold union
  split
  · next hs ht =>
    rw [mem_iff_mem_items rfl, mem_items_listUnion, mem_iff_mem_items hs, mem_iff_mem_items ht]
  · next hs ht =>
    rw [mem_iff_not_mem_items rfl, mem_items_listDiff, mem_iff_mem_items hs,
      mem_iff_not_mem_items ht, Classical.not_and_iff_not_or_not, Classical.not_not, or_comm]
  · next hs ht =>
    rw [mem_iff_not_mem_items rfl, mem_items_listDiff, mem_iff_not_mem_items hs,
      mem_iff_mem_items ht, Classical.not_and_iff_not_or_not, Classical.not_not]
  · next hs ht =>
    rw [mem_iff_not_mem_items rfl, mem_items_listInter, mem_iff_not_mem_items hs,
      mem_iff_not_mem_items ht, Classical.not_and_iff_not_or_not]

/-- A difference has what the first set has and the second one has not. -/
@[simp] theorem mem_sdiff : c ∈ s \ t ↔ c ∈ s ∧ c ∉ t := by
  change c ∈ diff s t ↔ _
  unfold diff
  split
  · next hs ht =>
    rw [mem_iff_mem_items rfl, mem_items_listDiff, mem_iff_mem_items hs, mem_iff_mem_items ht]
  · next hs ht =>
    rw [mem_iff_mem_items rfl, mem_items_listInter, mem_iff_mem_items hs, mem_iff_not_mem_items ht,
      Classical.not_not]
  · next hs ht =>
    rw [mem_iff_not_mem_items rfl, mem_items_listUnion, mem_iff_not_mem_items hs,
      mem_iff_mem_items ht, not_or]
  · next hs ht =>
    rw [mem_iff_mem_items rfl, mem_items_listDiff, mem_iff_not_mem_items hs,
      mem_iff_not_mem_items ht, Classical.not_not, and_comm]

end

/-- The items in quotes, behind `not` if they are what the set leaves out. -/
def text (s : CharSet) : List Char :=
  (if s.negated then "not".toList else []) ++ Text.quoted s.items

end CharSet

end RegexScan

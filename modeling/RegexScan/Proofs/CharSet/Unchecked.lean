import RegexScan.Proofs.Ascending
import RegexScan.Proofs.CharSet.Algebra
import RegexScan.Proofs.CharSet.Canonical

/-!
# Sets stay canonical

The type of sets admits strictly ascending items only.  Here the same sets are made with nothing
known about their items, by walks along two lists of items, and are searched between their bounds by
halving.  Whatever is made in this way has strictly ascending items nevertheless, so it is one of
the sets of that type, and it is the only one of its sign with its members.
-/

namespace RegexScan.CharSet

/-- Items and a sign. -/
structure Unchecked where
  items : List Char
  negated : Bool
deriving DecidableEq

/-- The set without what is known about its items. -/
def unchecked (s : CharSet) : Unchecked := ⟨s.items, s.negated⟩

/-- Forgetting that the items ascend loses nothing. -/
theorem unchecked_injective : Function.Injective unchecked := by
  rintro ⟨items, negated, _⟩ ⟨items', negated', _⟩ h
  cases h
  rfl

/-- Sets of one sign differ in a character or not at all. -/
theorem contains_eq_iff {s t : CharSet} (hsign : s.negated = t.negated) :
    (∀ c, s.contains c = t.contains c) ↔ s = t := by
  constructor
  · intro h
    refine eq_of_mem_iff hsign fun c ↦ ?_
    change s.contains c = true ↔ t.contains c = true
    rw [h]
  · rintro rfl c
    rfl

namespace Unchecked

def ofList (cs : List Char) (negated : Bool) : Unchecked := ⟨Ascending.ofList cs, negated⟩

def range (a b : Char) : Unchecked :=
  if a ≤ b then ⟨charsBetween a b, false⟩ else ⟨charsBetween b a, false⟩

def compl (s : Unchecked) : Unchecked := { s with negated := !s.negated }

private def either (xs ys : List Char) : List Char := Ascending.walk (· || ·) xs ys

private def both (xs ys : List Char) : List Char := Ascending.walk (· && ·) xs ys

private def onlyLeft (xs ys : List Char) : List Char :=
  Ascending.walk (fun left right ↦ left && !right) xs ys

/-- The four cases of an intersection, by the signs of its sides. -/
def inter (s t : Unchecked) : Unchecked :=
  match s.negated, t.negated with
  | false, false => ⟨both s.items t.items, false⟩
  | false, true => ⟨onlyLeft s.items t.items, false⟩
  | true, false => ⟨onlyLeft t.items s.items, false⟩
  | true, true => ⟨either s.items t.items, true⟩

/-- The four cases of a union, by the signs of its sides. -/
def union (s t : Unchecked) : Unchecked :=
  match s.negated, t.negated with
  | false, false => ⟨either s.items t.items, false⟩
  | false, true => ⟨onlyLeft t.items s.items, true⟩
  | true, false => ⟨onlyLeft s.items t.items, true⟩
  | true, true => ⟨both s.items t.items, true⟩

/-- The four cases of a difference, by the signs of its sides. -/
def diff (s t : Unchecked) : Unchecked :=
  match s.negated, t.negated with
  | false, false => ⟨onlyLeft s.items t.items, false⟩
  | false, true => ⟨both s.items t.items, false⟩
  | true, false => ⟨either s.items t.items, true⟩
  | true, true => ⟨onlyLeft t.items s.items, false⟩

/-- Only what lies between the first and the last item is searched. -/
def contains (s : Unchecked) (c : Char) : Bool :=
  match s.items.head?, s.items.getLast? with
  | some first, some last =>
    if first ≤ c ∧ c ≤ last then Ascending.bisect c s.items != s.negated else s.negated
  | _, _ => s.negated

end Unchecked

/-! ## The same sets -/

section

variable (s t : CharSet)

theorem unchecked_range (a b : Char) : (range a b).unchecked = .range a b := by
  rw [range, Unchecked.range]
  split <;> rfl

theorem unchecked_compl : s.compl.unchecked = s.unchecked.compl := rfl

/-- Intersections agree on both sides, for every pair of signs. -/
theorem unchecked_inter : (s ∩ t).unchecked = s.unchecked.inter t.unchecked := by
  obtain ⟨xs, negated, hx⟩ := s
  obtain ⟨ys, negated', hy⟩ := t
  cases negated <;> cases negated'
  · exact congrArg (Unchecked.mk · _) (Ascending.walk_and_eq_inter hx hy).symm
  · exact congrArg (Unchecked.mk · _) (Ascending.walk_and_not_eq_diff hx hy).symm
  · exact congrArg (Unchecked.mk · _) (Ascending.walk_and_not_eq_diff hy hx).symm
  · exact congrArg (Unchecked.mk · _) (Ascending.walk_or_eq_union hx hy).symm

theorem unchecked_union : (s ∪ t).unchecked = s.unchecked.union t.unchecked := by
  obtain ⟨xs, negated, hx⟩ := s
  obtain ⟨ys, negated', hy⟩ := t
  cases negated <;> cases negated'
  · exact congrArg (Unchecked.mk · _) (Ascending.walk_or_eq_union hx hy).symm
  · exact congrArg (Unchecked.mk · _) (Ascending.walk_and_not_eq_diff hy hx).symm
  · exact congrArg (Unchecked.mk · _) (Ascending.walk_and_not_eq_diff hx hy).symm
  · exact congrArg (Unchecked.mk · _) (Ascending.walk_and_eq_inter hx hy).symm

theorem unchecked_sdiff : (s \ t).unchecked = s.unchecked.diff t.unchecked := by
  obtain ⟨xs, negated, hx⟩ := s
  obtain ⟨ys, negated', hy⟩ := t
  cases negated <;> cases negated'
  · exact congrArg (Unchecked.mk · _) (Ascending.walk_and_not_eq_diff hx hy).symm
  · exact congrArg (Unchecked.mk · _) (Ascending.walk_and_eq_inter hx hy).symm
  · exact congrArg (Unchecked.mk · _) (Ascending.walk_or_eq_union hx hy).symm
  · exact congrArg (Unchecked.mk · _) (Ascending.walk_and_not_eq_diff hy hx).symm

/-- What is not between the bounds is not an item. -/
theorem contains_unchecked (c : Char) : s.unchecked.contains c = s.contains c := by
  have hcontains : s.contains c = (s.items.contains c != s.negated) := by
    rw [contains, Ascending.mem_eq_contains s.ascending]
  have hout (h : c ∉ s.items) : s.negated = s.contains c := by
    rw [hcontains, List.contains_eq_mem, decide_eq_false h, Bool.false_bne]
  rw [Unchecked.contains, unchecked]
  split
  · next first last hfirst hlast =>
    split
    · rw [hcontains, Bool.eq_iff_iff.mpr ((Ascending.bisect_iff_mem s.ascending).trans
        List.contains_iff_mem.symm)]
    · next hbounds =>
      exact hout fun hc ↦ hbounds ⟨Ascending.head_le_of_mem s.ascending hfirst hc,
        Ascending.le_last_of_mem s.ascending hlast hc⟩
  · next hempty =>
    exact hout fun hc ↦ hempty _ _ (List.head?_eq_some_head (List.ne_nil_of_mem hc))
      (List.getLast?_eq_some_getLast (List.ne_nil_of_mem hc))

end

/-! ## Constructions -/

/-- How a set is made: from characters in any order and with repetitions, from a range whose bounds
may be swapped, and from sets made before. -/
inductive Construction where
  | empty
  | full
  | singleton (c : Char)
  | ofList (cs : List Char)
  | complOfList (cs : List Char)
  | range (a b : Char)
  | compl (s : Construction)
  | inter (s t : Construction)
  | union (s t : Construction)
  | diff (s t : Construction)

namespace Construction

def set : Construction → CharSet
  | .empty => .empty
  | .full => .full
  | .singleton c => .singleton c
  | .ofList cs => .ofList cs
  | .complOfList cs => (CharSet.ofList cs).compl
  | .range a b => .range a b
  | .compl s => s.set.compl
  | .inter s t => s.set ∩ t.set
  | .union s t => s.set ∪ t.set
  | .diff s t => s.set \ t.set

/-- The same construction, with nothing known about the items. -/
def unchecked : Construction → Unchecked
  | .empty => ⟨[], false⟩
  | .full => ⟨[], true⟩
  | .singleton c => ⟨[c], false⟩
  | .ofList cs => .ofList cs false
  | .complOfList cs => .ofList cs true
  | .range a b => .range a b
  | .compl s => s.unchecked.compl
  | .inter s t => s.unchecked.inter t.unchecked
  | .union s t => s.unchecked.union t.unchecked
  | .diff s t => s.unchecked.diff t.unchecked

/-- A construction gives the same items whether order is carried by the type or not. -/
theorem unchecked_set (e : Construction) : e.set.unchecked = e.unchecked := by
  induction e with
  | empty => rfl
  | full => rfl
  | singleton c => rfl
  | ofList cs => rfl
  | complOfList cs => rfl
  | range a b => exact unchecked_range a b
  | compl s ih => rw [set, unchecked_compl, ih, unchecked]
  | inter s t ihs iht => rw [set, unchecked_inter, ihs, iht, unchecked]
  | union s t ihs iht => rw [set, unchecked_union, ihs, iht, unchecked]
  | diff s t ihs iht => rw [set, unchecked_sdiff, ihs, iht, unchecked]

/-- Every set can be constructed. -/
theorem exists_set_eq (s : CharSet) : ∃ e : Construction, e.set = s := by
  cases h : s.negated with
  | false => exact ⟨.ofList s.items, (eq_ofList_items h).symm⟩
  | true => exact ⟨.complOfList s.items, (eq_compl_ofList_items h).symm⟩

/-- Whatever construction a set comes from, its items are strictly ascending, and it is the only set
of its sign with its members.  Nothing has to be known about the items for that, and so the sets
that can be constructed are those whose type says it. -/
theorem constructed_canonical (e e' : Construction) :
    e.unchecked.items.Pairwise (· < ·) ∧
      (e.unchecked.negated = e'.unchecked.negated →
        ((∀ c, e.unchecked.contains c = e'.unchecked.contains c) ↔ e.unchecked = e'.unchecked)) ∧
      e.set.unchecked = e.unchecked ∧ (∀ c, e.unchecked.contains c = e.set.contains c) ∧
      ∀ s : CharSet, ∃ e : Construction, e.set = s := by
  have hcontains (e : Construction) (c : Char) : e.unchecked.contains c = e.set.contains c := by
    rw [← unchecked_set, contains_unchecked]
  refine ⟨?_, fun hsign ↦ ?_, unchecked_set e, hcontains e, exists_set_eq⟩
  · rw [← unchecked_set]
    exact e.set.ascending
  · simp only [hcontains]
    rw [← unchecked_set, ← unchecked_set] at hsign ⊢
    exact (contains_eq_iff hsign).trans unchecked_injective.eq_iff.symm

/-- A range with its bounds swapped without a complement, and a list with a repeated item. -/
theorem constructed_canonical_vowels :
    let e : Construction := .diff (.range 'f' 'a') (.compl (.ofList ['e', 'a', 'x', 'e']))
    let e' : Construction := .ofList ['e', 'a', 'e']
    e.unchecked.negated = e'.unchecked.negated ∧ e.unchecked.items.Pairwise (· < ·) ∧
      ∀ c, e.unchecked.contains c = e'.unchecked.contains c := by
  intro e e'
  have hsign : e.unchecked.negated = e'.unchecked.negated := rfl
  have hset : e.set = e'.set := by
    refine eq_of_mem_iff rfl fun c ↦ ?_
    simp only [e, e', set, mem_sdiff, mem_compl, mem_ofList, mem_range, not_not, List.mem_cons,
      List.not_mem_nil, or_false]
    constructor
    · rintro ⟨hbetween, rfl | rfl | rfl | rfl⟩
      · exact .inl rfl
      · exact .inr (.inl rfl)
      · exact absurd hbetween (by decide)
      · exact .inl rfl
    · rintro (rfl | rfl | rfl)
      · exact ⟨by decide, .inl rfl⟩
      · exact ⟨by decide, .inr (.inl rfl)⟩
      · exact ⟨by decide, .inl rfl⟩
  have heq : e.unchecked = e'.unchecked := by
    rw [← unchecked_set, ← unchecked_set, hset]
  obtain ⟨hascending, hcontains, -⟩ := constructed_canonical e e'
  exact ⟨hsign, hascending, (hcontains hsign).mpr heq⟩

end Construction

end RegexScan.CharSet

import Mathlib.Algebra.Group.Nat.Defs
import Mathlib.Data.List.Sort
import Mathlib.Data.List.Sublists
import Mathlib.Order.Bounds.Basic
import Mathlib.Order.MinMax
import RegexScan.Dfa.Determinize
import RegexScan.Proofs.Dfa.Partition
import RegexScan.Proofs.Nfa.Closure

/-!
# Sets of states as states

What a closure leads to and accepts depends on its members only, not on the order in which the
search found them.  So a closure may stand for every other one with the same members, and there are
no more of them than sets of states.
-/

namespace RegexScan

open Label

namespace Nfa

variable {α : Type}

/-- A transition gives a label if it is on a set that is not structurally empty. -/
theorem Transition.label?_eq_some {e : Transition} {l : Label Nat} :
    e.label? = some l ↔ e.on = some l.chars ∧ e.target = l.target ∧ l.chars.isEmpty = false := by
  obtain ⟨on, t⟩ := e
  obtain ⟨k, u⟩ := l
  cases on with
  | none => simp [label?]
  | some k' =>
    simp only [label?, Option.ite_none_left_eq_some, Bool.not_eq_true, Option.some.injEq,
      Label.mk.injEq]
    constructor
    · rintro ⟨hne, rfl, rfl⟩
      exact ⟨rfl, rfl, hne⟩
    · rintro ⟨rfl, rfl, hne⟩
      exact ⟨hne, rfl, rfl⟩

/-- The values of a list of states. -/
def valuesOf (nfa : Nfa α) (ss : List Nat) : Set α := {a | ∃ s ∈ ss, nfa.accepting? s = some a}

/-- A set of existing states that is closed under free transitions, with the labels and the value
of its members. -/
structure IsClosure [LE α] (nfa : Nfa α) (k : Closure α) : Prop where
  lt_size : ∀ s ∈ k.members, s < nfa.size
  closed : ∀ s ∈ k.members, ∀ t, nfa.Path s [] t → t ∈ k.members
  target_lt : ∀ l ∈ k.labels, l.target < nfa.size
  mem_targetsOn : ∀ c t, t ∈ targetsOn c k.labels ↔
    ∃ s ∈ k.members, ∃ κ, ⟨some κ, t⟩ ∈ nfa.transitionsFrom s ∧ c ∈ κ
  accepting_eq_some : ∀ a, k.accepting = some a ↔ IsLeast (nfa.valuesOf k.members) a
  accepting_eq_none : k.accepting = none ↔ nfa.valuesOf k.members = ∅

section

variable [LinearOrder α] {nfa : Nfa α} {starters : List Nat} {s t : Nat}

/-- The labels of a closure are those of the transitions that leave its members. -/
theorem mem_labels_closureOf {l : Label Nat} :
    l ∈ (nfa.closureOf starters).labels ↔
      ∃ s ∈ (nfa.closureOf starters).members,
        ⟨some l.chars, l.target⟩ ∈ nfa.transitionsFrom s ∧ l.chars.isEmpty = false := by
  simp only [closureOf, List.mem_flatMap, List.mem_filterMap, Transition.label?_eq_some,
    Ascending.mem_ofList]
  constructor
  · rintro ⟨s, hs, ⟨on, t⟩, he, hon, ht, hne⟩
    obtain rfl : on = some l.chars := hon
    obtain rfl : t = l.target := ht
    exact ⟨s, hs, he, hne⟩
  · rintro ⟨s, hs, he, hne⟩
    exact ⟨s, hs, _, he, rfl, rfl, hne⟩

theorem mem_values_closureOf {a : α} :
    a ∈ (nfa.closure starters).filterMap nfa.accepting? ↔
      a ∈ nfa.valuesOf (nfa.closureOf starters).members := by
  simp only [closureOf, valuesOf, List.mem_filterMap, Set.mem_ofPred_eq, Ascending.mem_ofList]

/-- The members of a closure are what paths of the empty word lead to. -/
theorem mem_members_closureOf (hr : nfa.InRange) (hs : ∀ s ∈ starters, s < nfa.size) :
    t ∈ (nfa.closureOf starters).members ↔ ∃ s ∈ starters, nfa.Path s [] t := by
  rw [closureOf, Ascending.mem_ofList, mem_closure_iff hr.targetsExist hs]

/-- What `closureOf` gives is closed, with the labels and the value of its members. -/
theorem isClosure_closureOf (hr : nfa.InRange) (hs : ∀ s ∈ starters, s < nfa.size) :
    nfa.IsClosure (nfa.closureOf starters) where
  lt_size t ht := by
    obtain ⟨s, hss, hpath⟩ := (mem_members_closureOf hr hs).mp ht
    exact hpath.lt_size hr (hs s hss)
  closed t ht u hu := by
    obtain ⟨s, hss, hpath⟩ := (mem_members_closureOf hr hs).mp ht
    exact (mem_members_closureOf hr hs).mpr ⟨s, hss, hpath.trans hu⟩
  target_lt l hl := by
    obtain ⟨s, -, he, -⟩ := mem_labels_closureOf.mp hl
    exact hr.target_lt he
  mem_targetsOn c t := by
    rw [Label.mem_targetsOn]
    constructor
    · rintro ⟨l, hl, hc, rfl⟩
      obtain ⟨s, hs, he, -⟩ := mem_labels_closureOf.mp hl
      exact ⟨s, hs, l.chars, he, hc⟩
    · rintro ⟨s, hs, κ, he, hc⟩
      have hne : κ.isEmpty = false := by
        rw [← Bool.not_eq_true]
        exact fun hempty ↦ CharSet.not_mem_of_isEmpty hempty c hc
      exact ⟨⟨κ, t⟩, mem_labels_closureOf.mpr ⟨s, hs, he, hne⟩, hc, rfl⟩
  accepting_eq_some a := by
    have : Std.LawfulOrderMin α := .of_le_min_iff (fun _ _ _ ↦ le_min_iff) min_choice
    rw [show (nfa.closureOf starters).accepting =
      ((nfa.closure starters).filterMap nfa.accepting?).min? from rfl, List.min?_eq_some_iff,
      mem_values_closureOf]
    refine and_congr_right fun _ ↦ forall_congr' fun b ↦ ?_
    rw [mem_values_closureOf]
  accepting_eq_none := by
    rw [show (nfa.closureOf starters).accepting =
      ((nfa.closure starters).filterMap nfa.accepting?).min? from rfl, List.min?_eq_none_iff,
      List.eq_nil_iff_forall_not_mem, Set.eq_empty_iff_forall_notMem]
    exact forall_congr' fun b ↦ not_congr mem_values_closureOf

end

/-- What the members lead to by reading a character, the closure of the targets holds. -/
theorem IsClosure.mem_closureOf_targetsOn [LinearOrder α] {nfa : Nfa α} {k : Closure α}
    (hr : nfa.InRange) (hk : nfa.IsClosure k) (c : Char) (t : Nat) :
    t ∈ (nfa.closureOf (targetsOn c k.labels)).members ↔ ∃ s ∈ k.members, nfa.Path s [c] t := by
  have hlt : ∀ u ∈ targetsOn c k.labels, u < nfa.size := by
    intro u hu
    obtain ⟨l, hl, -, rfl⟩ := Label.mem_targetsOn.mp hu
    exact hk.target_lt l hl
  rw [mem_members_closureOf hr hlt]
  constructor
  · rintro ⟨u, hu, hpath⟩
    obtain ⟨s, hs, κ, he, hc⟩ := (hk.mem_targetsOn c u).mp hu
    exact ⟨s, hs, .char he hc hpath⟩
  · rintro ⟨s, hs, hpath⟩
    obtain ⟨r, κ, u, hsr, he, hc, hut⟩ := hpath.exists_of_cons
    exact ⟨u, (hk.mem_targetsOn c u).mpr ⟨r, hk.closed s hs r hsr, κ, he, hc⟩, hut⟩

end Nfa

/-! ## Distinct sets -/

namespace Dfa

variable {α : Type}

section

variable {found : Found α}

theorem nodup_members_push {k : Nfa.Closure α} (h : (found.toList.map (·.members)).Nodup)
    (hnew : ∀ k' ∈ found, k'.members ≠ k.members) :
    ((found.push k).toList.map (·.members)).Nodup := by
  rw [Array.toList_push, List.map_append, List.map_singleton]
  refine List.nodup_append.mpr ⟨h, List.nodup_singleton _, ?_⟩
  intro ms hms ms' hms'
  obtain ⟨k', hk', rfl⟩ := List.mem_map.mp hms
  rw [List.mem_singleton.mp hms']
  exact hnew k' (Array.mem_toList_iff.mp hk')

/-- Every ascending list of states is a sublist of that of all states, and those are as many as
there are sets of states. -/
theorem length_le_two_pow {n : Nat} {sets : List (List Nat)} (hnodup : sets.Nodup)
    (hascending : ∀ ms ∈ sets, ms.Pairwise (· < ·)) (hlt : ∀ ms ∈ sets, ∀ s ∈ ms, s < n) :
    sets.length ≤ 2 ^ n := by
  have hsub : sets ⊆ (List.range n).sublists := by
    intro ms hms
    refine List.mem_sublists.mpr (List.sublist_of_subperm_of_pairwise (r := (· < ·)) ?_
      (hascending ms hms) List.pairwise_lt_range)
    apply List.subperm_of_subset ((hascending ms hms).imp Nat.ne_of_lt)
    intro s hs
    exact List.mem_range.mpr (hlt ms hms s hs)
  have hle := (List.subperm_of_subset hnodup hsub).length_le
  rwa [List.length_sublists, List.length_range] at hle

/-- Distinct sets of states below `n` are at most `2 ^ n`. -/
theorem size_le_two_pow {n : Nat} (hnodup : (found.toList.map (·.members)).Nodup)
    (hlt : ∀ k ∈ found, ∀ s ∈ k.members, s < n) : found.size ≤ 2 ^ n := by
  have hle := length_le_two_pow (n := n) hnodup
    (List.forall_mem_map.mpr fun k _ ↦ k.ascending)
    (List.forall_mem_map.mpr fun k hk ↦ hlt k (Array.mem_toList_iff.mp hk))
  rwa [List.length_map, Array.length_toList] at hle

end

/-- Closures with distinct members. -/
structure Discovered [LE α] (nfa : Nfa α) (found : Found α) : Prop where
  isClosure : ∀ k ∈ found, nfa.IsClosure k
  nodup : (found.toList.map (·.members)).Nodup

variable [LinearOrder α] {nfa : Nfa α} {found : Found α}

theorem discovered_empty (nfa : Nfa α) : Discovered nfa #[] :=
  ⟨fun _ hk ↦ absurd hk (Array.not_mem_empty _), .nil⟩

/-- A closure with new members is a discovery. -/
theorem Discovered.push (h : Discovered nfa found) {k : Nfa.Closure α} (hk : nfa.IsClosure k)
    (hnew : ∀ k' ∈ found, k'.members ≠ k.members) : Discovered nfa (found.push k) where
  isClosure k' hk' := by
    rcases Array.mem_push.mp hk' with hk' | rfl
    · exact h.isClosure k' hk'
    · exact hk
  nodup := nodup_members_push h.nodup hnew

theorem Discovered.size_le (h : Discovered nfa found) : found.size ≤ 2 ^ nfa.size :=
  size_le_two_pow h.nodup fun k hk ↦ (h.isClosure k hk).lt_size

end Dfa

end RegexScan

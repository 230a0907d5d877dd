import RegexScan.Proofs.Dfa.Reachable
import RegexScan.Proofs.FirstOccurrences

/-!
# States are numbered breadth first

Whenever a transition is made, it leads to a closure that was found before or to a new one, which
gets the next number.  So among all targets, state by state, the numbers first occur in their order.
It follows that a state is at least as near to the start as those that are numbered behind it.
-/

namespace RegexScan.Dfa

variable {α : Type}

/-- Where the transitions of states lead, state by state. -/
def targetsOf (states : List (State α)) : List Nat :=
  states.flatMap fun state ↦ state.transitions.map (·.target)

def targets (dfa : Dfa α) : List Nat := targetsOf dfa.states.toList

/-- At most `n` transitions lead from the start to a state. -/
inductive ReachedIn (dfa : Dfa α) : Nat → Nat → Prop
  | start (n : Nat) : ReachedIn dfa n dfa.start
  | join {n r s : Nat} : ReachedIn dfa n r → dfa.Joins r s → ReachedIn dfa (n + 1) s

/-! ## The search numbers what it finds -/

section

variable {limit : Option Nat} {found found' : Found α} {earlier : List Nat}

/-- Locating a closure hands out its number: an earlier one, or else the next. -/
theorem numbers_locate {k : Nfa.Closure α} {i : Nat} (h : Numbers found.size earlier)
    (hlocate : locate limit found k = .ok (found', i)) :
    Numbers found'.size (earlier ++ [i]) := by
  rcases locate_cases hlocate with ⟨rfl, k', hk', -⟩ | ⟨rfl, rfl, -⟩
  · obtain ⟨hlt, -⟩ := Array.getElem?_eq_some_iff.mp hk'
    exact h.concat_of_lt hlt
  · rw [Array.size_push]
    exact h.concat_self

variable [LinearOrder α] {nfa : Nfa α}

theorem numbers_connect {ps : List (Piece Nat)} {ts : List Transition}
    (h : Numbers found.size earlier) (hconnect : connect nfa limit found ps = .ok (found', ts)) :
    Numbers found'.size (earlier ++ ts.map (·.target)) := by
  induction ps generalizing found earlier ts with
  | nil =>
    cases hconnect
    rwa [List.map_nil, List.append_nil]
  | cons p ps ih =>
    obtain ⟨mid, i, us, hlocate, hrest, rfl⟩ := connect_cons_eq_ok_iff.mp hconnect
    rw [List.map_cons, List.append_cons]
    exact ih (numbers_locate h hlocate) hrest

/-- Wherever the search comes to, the closures found are numbered by the targets so far, behind the
start. -/
theorem Underway.numbers {w : Progress α} (h : Underway nfa limit w) :
    Numbers w.found.size (0 :: targetsOf w.states.toList) := by
  induction h with
  | refl => rfl
  | tail _ hturn ih =>
    cases hturn with
    | finish hk hconnect =>
      rw [Array.toList_push, targetsOf, List.flatMap_append, List.flatMap_singleton,
        ← List.cons_append]
      exact numbers_connect ih hconnect

/-- The start and then the targets, read state by state, are numbered in the order in
which they first occur. -/
theorem numbers_determinize {dfa : Dfa α} (h : determinize nfa limit = .ok dfa) :
    Numbers dfa.size (0 :: dfa.targets) := by
  obtain ⟨found, hunderway, hsize⟩ := exists_finished h
  rw [← hsize]
  exact hunderway.numbers

end

/-! ## What the numbers tell -/

section

variable {dfa : Dfa α} {n r s t : Nat}

theorem mem_targetsOf_take :
    s ∈ targetsOf (dfa.states.toList.take n) ↔ ∃ r < n, dfa.Joins r s := by
  simp only [targetsOf, List.mem_flatMap, List.mem_map]
  constructor
  · rintro ⟨state, hstate, htarget⟩
    obtain ⟨r, hr, rfl⟩ := List.mem_take_iff_getElem.mp hstate
    have hlt := Nat.lt_min.mp hr
    refine ⟨r, hlt.1, ?_⟩
    rw [Joins, transitionsFrom, ← Array.getElem?_toList, List.getElem?_eq_getElem hlt.2]
    exact htarget
  · rintro ⟨r, hr, t, ht, htarget⟩
    rw [transitionsFrom] at ht
    split at ht
    · next state hstate =>
      rw [← Array.getElem?_toList] at hstate
      have hmem : state ∈ dfa.states.toList.take n :=
        List.mem_of_getElem? ((List.getElem?_take_of_lt hr).trans hstate)
      exact ⟨state, hmem, t, ht, htarget⟩
    · exact absurd ht List.not_mem_nil

/-- A state with a smaller number is the target of an earlier transition. -/
theorem exists_joins_le (h : Numbers dfa.size (0 :: dfa.targets)) (hjoins : dfa.Joins r t)
    (hpos : 0 < s) (hle : s ≤ t) : ∃ q ≤ r, dfa.Joins q s := by
  -- the targets up to those of `r` are numbered by themselves, and `t` is among them
  have hsplit : 0 :: dfa.targets = (0 :: targetsOf (dfa.states.toList.take (r + 1))) ++
      targetsOf (dfa.states.toList.drop (r + 1)) := by
    rw [List.cons_append, targetsOf, targetsOf, ← List.flatMap_append, List.take_append_drop]
    rfl
  obtain ⟨m, hm⟩ := (hsplit ▸ h).exists_of_append
  have ht : t ∈ 0 :: targetsOf (dfa.states.toList.take (r + 1)) :=
    .tail _ (mem_targetsOf_take.mpr ⟨r, Nat.lt_succ_self r, hjoins⟩)
  have hs : s ∈ 0 :: targetsOf (dfa.states.toList.take (r + 1)) :=
    hm.mem_iff.mpr (Nat.lt_of_le_of_lt hle (hm.mem_iff.mp ht))
  obtain ⟨q, hq, hjoins⟩ :=
    mem_targetsOf_take.mp (List.mem_of_ne_of_mem (Nat.ne_of_gt hpos) hs)
  exact ⟨q, Nat.le_of_lt_succ hq, hjoins⟩

/-- So it is no further from the start. -/
theorem ReachedIn.of_le (hstart : dfa.start = 0) (h : Numbers dfa.size (0 :: dfa.targets))
    (ht : dfa.ReachedIn n t) (hle : s ≤ t) : dfa.ReachedIn n s := by
  induction ht generalizing s with
  | start n =>
    rw [hstart, Nat.le_zero] at hle
    rw [hle, ← hstart]
    exact .start n
  | join _ hjoins ih =>
    rcases Nat.eq_zero_or_pos s with rfl | hpos
    · rw [← hstart]
      exact .start _
    · obtain ⟨q, hq, hjoins⟩ := exists_joins_le h hjoins hpos hle
      exact .join (ih hq) hjoins

variable [LinearOrder α] {nfa : Nfa α} {limit : Option Nat}

/-- Going through the transitions of all states in their order, states other than the start occur
first as targets in the order of their numbers, and none is missing.  Each of them is first a target
of a state with a smaller number, and none is nearer to the start than one with a smaller number. -/
theorem determinize_breadthFirst (h : determinize nfa limit = .ok dfa) :
    dfa.start = 0 ∧ 0 < dfa.size ∧
      (dfa.targets.filter (· ≠ dfa.start)).eraseDups = List.range' 1 (dfa.size - 1) ∧
      (∀ s, 0 < s → s < dfa.size → ∃ r < s, dfa.Joins r s ∧ ∀ q < r, ¬dfa.Joins q s) ∧
      ∀ n s t, s ≤ t → dfa.ReachedIn n t → dfa.ReachedIn n s := by
  have hstart := start_eq_zero h
  have hnumbers := numbers_determinize h
  refine ⟨hstart, hnumbers.mem_iff.mp List.mem_cons_self, ?_, ?_,
    fun n s t hle ht ↦ ht.of_le hstart hnumbers hle⟩
  · rw [hstart]
    exact hnumbers.eraseDups_filter_ne_zero
  · intro s hpos hs
    classical
    obtain ⟨r, hr, hjoins⟩ := exists_joins_lt h hpos hs
    have hjoined : ∃ q, dfa.Joins q s := ⟨r, hjoins⟩
    exact ⟨Nat.find hjoined, Nat.lt_of_le_of_lt (Nat.find_min' hjoined hjoins) hr,
      Nat.find_spec hjoined, fun q hq ↦ Nat.find_min hjoined hq⟩

/-- Transitions back to the start and in circles, and states that are met again before or after new
ones. -/
theorem determinize_breadthFirst_back :
    let a := CharSet.singleton 'a'
    let b := CharSet.singleton 'b'
    let nfa : Nfa Nat := ⟨0, #[
      ⟨[⟨some a, 2⟩, ⟨some b, 1⟩], none⟩,
      ⟨[⟨some a, 0⟩, ⟨some b, 3⟩], none⟩,
      ⟨[⟨some a, 2⟩, ⟨some b, 4⟩, ⟨some (.singleton 'c'), 1⟩], none⟩,
      ⟨[], some 0⟩, ⟨[⟨some a, 1⟩], some 1⟩]⟩
    let dfa : Dfa Nat := ⟨0, #[
      ⟨[⟨a, 1⟩, ⟨b, 2⟩], none⟩,
      ⟨[⟨a, 1⟩, ⟨b, 3⟩, ⟨.singleton 'c', 2⟩], none⟩,
      ⟨[⟨a, 0⟩, ⟨b, 4⟩], none⟩,
      ⟨[⟨a, 2⟩], some 1⟩, ⟨[], some 0⟩]⟩
    determinize nfa none = .ok dfa ∧ dfa.targets = [1, 2, 1, 3, 2, 0, 4, 2] ∧
      (dfa.targets.filter (· ≠ dfa.start)).eraseDups = [1, 2, 3, 4] ∧
      ∃ r < 4, dfa.Joins r 4 ∧ ∀ q < r, ¬dfa.Joins q 4 := by
  intro a b nfa dfa
  have h : determinize nfa none = .ok dfa := by cbv
  obtain ⟨-, -, hfirst, hearlier, -⟩ := determinize_breadthFirst h
  exact ⟨h, rfl, hfirst, hearlier 4 (by decide) (by decide)⟩

end

end RegexScan.Dfa

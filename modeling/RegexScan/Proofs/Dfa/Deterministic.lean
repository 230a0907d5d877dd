import Mathlib.Data.List.Permutation
import RegexScan.Proofs.Dfa.Determinize

/-!
# At most one transition applies

The labels of a state are the pieces of a partition, which are apart, and every transition leads to
a closure that was found and will be finished.  Both hold of every automaton that is determinized,
wherever its transitions lead: a closure holds existing states only, so there are no more closures
than fuel.
-/

namespace RegexScan.Dfa

variable {α : Type}

/-- Every transition leads to a state of the automaton, and the labels of one state are sorted, not
empty and apart from one another. -/
structure Deterministic (dfa : Dfa α) : Prop where
  target_lt : ∀ s, ∀ t ∈ dfa.transitionsFrom s, t.target < dfa.size
  ascending : ∀ s, ∀ t ∈ dfa.transitionsFrom s, t.on.items.Pairwise (· < ·)
  nonempty : ∀ s, ∀ t ∈ dfa.transitionsFrom s, t.on.isEmpty = false
  apart : ∀ s, (dfa.transitionsFrom s).Pairwise fun t u ↦
    (t.on ∩ u.on).isEmpty = true ∧ ∀ c, ¬(c ∈ t.on ∧ c ∈ u.on)
  length_negated_le : ∀ s, ((dfa.transitionsFrom s).filter (·.on.negated)).length ≤ 1

/-! ## Labels that are apart -/

section

variable {ts us : List Transition}

/-- The labels are pieces, in their order. -/
def HasPieces (ts : List Transition) : Prop :=
  ∃ ls : List (Label Nat), ts.map (·.on) = (partition ls).map (·.chars)

theorem HasPieces.isEmpty (h : HasPieces ts) {t : Transition} (ht : t ∈ ts) :
    t.on.isEmpty = false := by
  obtain ⟨ls, hls⟩ := h
  have hon : t.on ∈ (partition ls).map (·.chars) := hls ▸ List.mem_map_of_mem ht
  obtain ⟨p, hp, heq⟩ := List.mem_map.mp hon
  exact heq ▸ isEmpty_of_mem_partition hp

theorem HasPieces.pairwise (h : HasPieces ts) :
    ts.Pairwise fun t u ↦ (t.on ∩ u.on).isEmpty = true := by
  obtain ⟨ls, hls⟩ := h
  have hpieces : ((partition ls).map (·.chars)).Pairwise fun s t ↦ (s ∩ t).isEmpty = true :=
    List.pairwise_map.mpr (pairwise_partition ls)
  rw [← hls] at hpieces
  exact List.pairwise_map.mp hpieces

/-- Of transitions that exclude one another with a property, at most one has it. -/
theorem length_filter_le_one {p : Transition → Bool}
    (h : ts.Pairwise fun t u ↦ ¬(p t = true ∧ p u = true)) : (ts.filter p).length ≤ 1 := by
  induction h with
  | nil => exact Nat.zero_le 1
  | @cons t ts hall _ ih =>
    rw [List.filter_cons]
    split
    · next ht =>
      have hnone : ts.filter p = [] :=
        List.filter_eq_nil_iff.mpr fun u hu hpu ↦ hall u hu ⟨ht, hpu⟩
      rw [hnone]
      exact Nat.le_refl 1
    · exact ih

/-- If at most one transition has a property, it is the first one in every order. -/
theorem find?_eq_of_perm {p : Transition → Bool} (hperm : us.Perm ts)
    (h : (ts.filter p).length ≤ 1) : us.find? p = ts.find? p := by
  have hfilter := hperm.filter p
  rw [← List.head?_filter, ← List.head?_filter]
  rcases Nat.le_one_iff_eq_zero_or_eq_one.mp h with hzero | hone
  · rw [List.length_eq_zero_iff.mp hzero] at hfilter ⊢
    rw [hfilter.eq_nil]
  · obtain ⟨t, ht⟩ := List.length_eq_one_iff.mp hone
    rw [ht] at hfilter ⊢
    rw [List.perm_singleton.mp hfilter]

end

/-- At most one transition of a state is on a given character. -/
theorem Deterministic.length_filter_contains_le {dfa : Dfa α} (h : dfa.Deterministic) (s : Nat)
    (c : Char) : ((dfa.transitionsFrom s).filter (·.on.contains c)).length ≤ 1 :=
  length_filter_le_one ((h.apart s).imp fun hapart ↦ hapart.2 c)

/-- The order of the transitions does not matter. -/
theorem Deterministic.step_eq_of_perm {dfa dfa' : Dfa α} (h : dfa.Deterministic)
    (hperm : ∀ s, (dfa'.transitionsFrom s).Perm (dfa.transitionsFrom s)) (s : Nat) (c : Char) :
    dfa'.step s c = dfa.step s c := by
  rw [step, step, find?_eq_of_perm (hperm s) (h.length_filter_contains_le s c)]

/-! ## Where the search leads -/

section

variable {nfa : Nfa α} {limit : Option Nat} {found found' : Found α} {states : Array (State α)}
  {starters : List Nat}

/-- The closures found are distinct sets of existing states. -/
structure Distinct (nfa : Nfa α) (found : Found α) : Prop where
  lt_size : ∀ k ∈ found, ∀ s ∈ k.members, s < nfa.size
  nodup : (found.toList.map (·.members)).Nodup

theorem distinct_empty (nfa : Nfa α) : Distinct nfa #[] :=
  ⟨fun _ hk ↦ absurd hk (Array.not_mem_empty _), .nil⟩

/-- A set of states is found under one number only. -/
theorem Distinct.index_eq (h : Distinct nfa found) {i j : Nat}
    {k l : Nfa.Closure α} (hi : found[i]? = some k) (hj : found[j]? = some l)
    (heq : k.members = l.members) : i = j := by
  have hi' : (found.toList.map (·.members))[i]? = some k.members := by
    rw [List.getElem?_map, Array.getElem?_toList, hi, Option.map_some]
  have hj' : (found.toList.map (·.members))[j]? = some k.members := by
    rw [List.getElem?_map, Array.getElem?_toList, hj, Option.map_some, heq]
  obtain ⟨hlt, -⟩ := List.getElem?_eq_some_iff.mp hi'
  exact (List.getElem?_inj hlt h.nodup).mp (hi'.trans hj'.symm)

/-- There are no more closures than sets of states. -/
theorem Distinct.size_le (h : Distinct nfa found) : found.size ≤ 2 ^ nfa.size :=
  size_le_two_pow h.nodup h.lt_size

variable [Min α]

theorem Distinct.push (h : Distinct nfa found)
    (hnew : ∀ k ∈ found, k.members ≠ (nfa.closureOf starters).members) :
    Distinct nfa (found.push (nfa.closureOf starters)) where
  lt_size k hk s hs := by
    rcases Array.mem_push.mp hk with hk | rfl
    · exact h.lt_size k hk s hs
    · exact Nfa.lt_size_of_mem_closure (Ascending.mem_ofList.mp hs)
  nodup := nodup_members_push h.nodup hnew

/-- Looking a closure up, or putting it behind the others, keeps them distinct. -/
theorem Distinct.locate {i : Nat} (h : Distinct nfa found)
    (hlocate : locate limit found (nfa.closureOf starters) = .ok (found', i)) :
    Distinct nfa found' ∧ found.size ≤ found'.size ∧ i < found'.size := by
  obtain ⟨hgrown, k, hk, -⟩ := grown_locate hlocate
  obtain ⟨hlt, -⟩ := Array.getElem?_eq_some_iff.mp hk
  refine ⟨?_, hgrown.size_le, hlt⟩
  rcases locate_cases hlocate with ⟨rfl, -⟩ | ⟨rfl, -, hnew⟩
  · exact h
  · exact h.push hnew

/-- The transitions for pieces have their characters, and lead to closures that were found. -/
theorem Distinct.connect {ps : List (Piece Nat)} {ts : List Transition} (h : Distinct nfa found)
    (hconnect : connect nfa limit found ps = .ok (found', ts)) :
    Distinct nfa found' ∧ found.size ≤ found'.size ∧ (∀ t ∈ ts, t.target < found'.size) ∧
      ts.map (·.on) = ps.map (·.chars) := by
  induction ps generalizing found ts with
  | nil =>
    cases hconnect
    exact ⟨h, Nat.le_refl _, fun _ ht ↦ absurd ht List.not_mem_nil, rfl⟩
  | cons p ps ih =>
    obtain ⟨mid, i, us, hlocate, hrest, rfl⟩ := connect_cons_eq_ok_iff.mp hconnect
    obtain ⟨hmid, hle, hlt⟩ := h.locate hlocate
    obtain ⟨hall, hle', htargets, hon⟩ := ih hmid hrest
    refine ⟨hall, hle.trans hle', ?_, ?_⟩
    · intro t ht
      rcases List.mem_cons.mp ht with rfl | ht
      · exact Nat.lt_of_lt_of_le hlt hle'
      · exact htargets t ht
    · rw [List.map_cons, List.map_cons, hon]

/-- What holds while the search goes on: the labels of the states so far are pieces, and every
transition leads to a closure that was found. -/
structure Wired (nfa : Nfa α) (found : Found α) (states : Array (State α)) : Prop
    extends Distinct nfa found where
  size_states_le : states.size ≤ found.size
  target_lt : ∀ state ∈ states, ∀ t ∈ state.transitions, t.target < found.size
  hasPieces : ∀ state ∈ states, HasPieces state.transitions

theorem Wired.push {k : Nfa.Closure α} (h : Wired nfa found states)
    (hk : found[states.size]? = some k) {ts : List Transition}
    (hconnect : Dfa.connect nfa limit found (partition k.labels) = .ok (found', ts)) :
    Wired nfa found' (states.push ⟨ts, k.accepting⟩) := by
  obtain ⟨hlt, -⟩ := Array.getElem?_eq_some_iff.mp hk
  obtain ⟨hfound', hle, htargets, hon⟩ := h.connect hconnect
  refine ⟨hfound', ?_, ?_, ?_⟩
  · rw [Array.size_push]
    exact Nat.lt_of_lt_of_le hlt hle
  · intro state hstate t ht
    rcases Array.mem_push.mp hstate with hstate | rfl
    · exact Nat.lt_of_lt_of_le (h.target_lt state hstate t ht) hle
    · exact htargets t ht
  · intro state hstate
    rcases Array.mem_push.mp hstate with hstate | rfl
    · exact h.hasPieces state hstate
    · exact ⟨k.labels, hon⟩

/-- The states are wired as long as the search goes on. -/
theorem Underway.wired {w : Progress α} (h : Underway nfa limit w) :
    Wired nfa w.found w.states := by
  induction h with
  | refl =>
    have hfirst : Distinct nfa (#[].push (nfa.closureOf [nfa.start])) :=
      (distinct_empty nfa).push fun _ hk ↦ absurd hk (Array.not_mem_empty _)
    have hnone : ∀ state : State α, state ∉ (#[] : Array (State α)) := fun _ ↦ Array.not_mem_empty _
    exact ⟨hfirst, Nat.zero_le _, fun _ hs ↦ absurd hs (hnone _), fun _ hs ↦ absurd hs (hnone _)⟩
  | tail _ hturn ih =>
    cases hturn with
    | finish hk hconnect => exact ih.push hk hconnect

/-- The search ends with a state for every closure found. -/
theorem exists_finished {dfa : Dfa α} (h : determinize nfa limit = .ok dfa) :
    ∃ found, Underway nfa limit ⟨found, dfa.states⟩ ∧ found.size = dfa.size := by
  obtain ⟨found, hunderway, hstop⟩ := exists_underway h
  have hwired := hunderway.wired
  exact ⟨found, hunderway, Nat.le_antisymm (hstop hwired.size_le) hwired.size_states_le⟩

theorem exists_wired {dfa : Dfa α} (h : determinize nfa limit = .ok dfa) :
    ∃ all, Wired nfa all dfa.states ∧ all.size = dfa.size := by
  obtain ⟨found, hunderway, hsize⟩ := exists_finished h
  exact ⟨found, hunderway.wired, hsize⟩

end

/-! ## Determinized automata -/

/-- The states of an automaton decide about its transitions. -/
theorem transitionsFrom_mem_or_nil (dfa : Dfa α) (s : Nat) :
    (∃ state ∈ dfa.states, dfa.transitionsFrom s = state.transitions) ∨
      dfa.transitionsFrom s = [] := by
  rw [transitionsFrom]
  cases hs : dfa.states[s]? with
  | none => exact .inr rfl
  | some state => exact .inl ⟨state, Array.mem_of_getElem? hs, rfl⟩

/-- An automaton of wired states is deterministic. -/
theorem Wired.deterministic [Min α] {nfa : Nfa α} {found : Found α} {dfa : Dfa α}
    (h : Wired nfa found dfa.states) (hsize : found.size = dfa.size) : dfa.Deterministic := by
  have hpieces : ∀ s, HasPieces (dfa.transitionsFrom s) := by
    intro s
    rcases dfa.transitionsFrom_mem_or_nil s with ⟨state, hstate, heq⟩ | heq
    · exact heq ▸ h.hasPieces state hstate
    · exact heq ▸ ⟨[], by rw [partition_of_none rfl]; rfl⟩
  have hpairwise := fun s ↦ (hpieces s).pairwise
  constructor
  · intro s t ht
    rcases dfa.transitionsFrom_mem_or_nil s with ⟨state, hstate, heq⟩ | heq
    · rw [heq] at ht
      exact hsize ▸ h.target_lt state hstate t ht
    · rw [heq] at ht
      exact absurd ht List.not_mem_nil
  · exact fun _ t _ ↦ t.on.ascending
  · exact fun s _ ht ↦ (hpieces s).isEmpty ht
  · intro s
    refine (hpairwise s).imp fun hempty ↦ ⟨hempty, ?_⟩
    rintro c ⟨hct, hcu⟩
    exact (CharSet.isEmpty_inter_iff.mp hempty).2 c hct hcu
  · intro s
    refine length_filter_le_one ((hpairwise s).imp ?_)
    rintro t u hempty ⟨ht, hu⟩
    have hsign := (CharSet.isEmpty_inter_iff.mp hempty).1
    rw [ht, hu] at hsign
    cases hsign <;> contradiction

/-- A determinized automaton has at most one transition for each state and character, whatever the
other automaton and the limit are, and so its steps do not depend on the order of transitions. -/
theorem determinize_deterministic [Min α] {nfa : Nfa α} {limit : Option Nat} {dfa : Dfa α}
    (h : determinize nfa limit = .ok dfa) :
    dfa.Deterministic ∧
      (∀ s c, ((dfa.transitionsFrom s).filter (·.on.contains c)).length ≤ 1) ∧
      ∀ dfa' : Dfa α, (∀ s, (dfa'.transitionsFrom s).Perm (dfa.transitionsFrom s)) →
        ∀ s c, dfa'.step s c = dfa.step s c := by
  obtain ⟨found, hwired, hsize⟩ := exists_wired h
  have hdfa := hwired.deterministic hsize
  exact ⟨hdfa, hdfa.length_filter_contains_le, fun _ hperm ↦ hdfa.step_eq_of_perm hperm⟩

/-- Two complements that overlap, and a limit that is just met: what both hold stays a complement,
and the transitions may as well stand in another order. -/
theorem determinize_two_complements :
    let nfa : Nfa Nat := ⟨0, #[
      ⟨[⟨some (CharSet.singleton 'a').compl, 1⟩, ⟨some (CharSet.singleton 'b').compl, 2⟩], none⟩,
      ⟨[], some 1⟩, ⟨[], some 0⟩]⟩
    let onBoth : Transition := ⟨⟨['a', 'b'], true, by decide⟩, 1⟩
    let onB : Transition := ⟨.singleton 'b', 2⟩
    let onA : Transition := ⟨.singleton 'a', 3⟩
    let leaves : List (State Nat) := [⟨[], some 0⟩, ⟨[], some 1⟩, ⟨[], some 0⟩]
    let dfa : Dfa Nat := ⟨0, (⟨[onBoth, onB, onA], none⟩ :: leaves).toArray⟩
    let dfa' : Dfa Nat := ⟨0, (⟨[onA, onB, onBoth], none⟩ :: leaves).toArray⟩
    determinize nfa (some 4) = .ok dfa ∧ dfa.Deterministic ∧ dfa'.step 0 'c' = some 1 := by
  intro nfa onBoth onB onA leaves dfa dfa'
  have h : determinize nfa (some 4) = .ok dfa := by cbv
  obtain ⟨hdfa, -, hstep⟩ := determinize_deterministic h
  refine ⟨h, hdfa, (hstep dfa' ?_ 0 'c').trans (by decide)⟩
  rintro (_ | s)
  · exact List.reverse_perm [onBoth, onB, onA]
  · exact .refl _

end RegexScan.Dfa

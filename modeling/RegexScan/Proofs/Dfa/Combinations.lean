import RegexScan.Proofs.Dfa.Deterministic
import RegexScan.Proofs.Dfa.Pieces
import RegexScan.Proofs.Nfa.SetId

/-!
# The search ends

Every closure that the search comes to is one of some states, so it is not empty, and no two of them
have the same members.  There are only so many sets of states, so the search ends, and it ends with
a state for each closure it found.
-/

namespace RegexScan.Dfa

variable {α : Type}

section

variable [Min α] {nfa : Nfa α} {limit : Option Nat} {found found' : Found α}

/-- The closures that are new after a turn are those of the targets of a piece. -/
theorem mem_of_connect {ps : List (Piece Nat)} {ts : List Transition}
    (h : connect nfa limit found ps = .ok (found', ts)) {k : Nfa.Closure α} (hk : k ∈ found') :
    k ∈ found ∨ ∃ p ∈ ps, k = nfa.closureOf p.targets := by
  induction ps generalizing found ts with
  | nil =>
    cases h
    exact .inl hk
  | cons p ps ih =>
    obtain ⟨mid, i, us, hlocate, hconnect, rfl⟩ := connect_cons_eq_ok_iff.mp h
    rcases ih hconnect with hmid | ⟨q, hq, heq⟩
    · rcases locate_cases hlocate with ⟨rfl, -⟩ | ⟨rfl, -, -⟩
      · exact .inl hmid
      · exact (Array.mem_push.mp hmid).imp_right fun heq ↦ ⟨p, List.mem_cons_self, heq⟩
    · exact .inr ⟨q, .tail _ hq, heq⟩

end

section

variable [LinearOrder α] {nfa : Nfa α} {limit : Option Nat} {w : Progress α} {k : Nfa.Closure α}

/-- A closure is found for some states, which exist if all states that are mentioned do. -/
theorem Underway.exists_starters (h : Underway nfa limit w) (hk : k ∈ w.found) :
    ∃ ss, k = nfa.closureOf ss ∧ ss ≠ [] ∧ (nfa.InRange → ∀ s ∈ ss, s < nfa.size) := by
  induction h generalizing k with
  | refl =>
    obtain rfl := Array.mem_singleton.mp hk
    exact ⟨_, rfl, List.cons_ne_nil _ _, fun hr s hs ↦ List.mem_singleton.mp hs ▸ hr.start_lt⟩
  | tail _ hturn ih =>
    cases hturn with
    | finish hk' hconnect =>
      rcases mem_of_connect hconnect hk with hk | ⟨p, hp, rfl⟩
      · exact ih hk
      · refine ⟨p.targets, rfl, targets_ne_nil_of_mem_partition hp, fun hr s hs ↦ ?_⟩
        obtain ⟨ss, rfl, -⟩ := ih (Array.mem_of_getElem? hk')
        obtain ⟨l, hl, rfl⟩ := mem_targets_partition hp hs
        obtain ⟨r, -, he, -⟩ := Nfa.mem_labels_closureOf.mp hl
        exact hr.target_lt he

theorem Underway.members_ne_nil (hr : nfa.InRange) (h : Underway nfa limit w) (hk : k ∈ w.found) :
    k.members ≠ [] := by
  obtain ⟨ss, rfl, hss, hlt⟩ := h.exists_starters hk
  obtain ⟨s, hs⟩ := List.exists_mem_of_ne_nil ss hss
  exact List.ne_nil_of_mem ((Nfa.mem_members_closureOf hr (hlt hr)).mpr ⟨s, hs, .refl s⟩)

/-- The empty set of states is left over. -/
theorem Underway.size_found_lt (hr : nfa.InRange) (h : Underway nfa limit w) :
    w.found.size < 2 ^ nfa.size := by
  have hdistinct := h.wired.toDistinct
  have hnodup : ([] :: w.found.toList.map (·.members)).Nodup := by
    refine List.nodup_cons.mpr ⟨fun hnil ↦ ?_, hdistinct.nodup⟩
    obtain ⟨k, hk, hmembers⟩ := List.mem_map.mp hnil
    exact h.members_ne_nil hr (Array.mem_toList_iff.mp hk) hmembers
  have hle := length_le_two_pow (n := nfa.size) hnodup
    (List.forall_mem_cons.mpr ⟨.nil, List.forall_mem_map.mpr fun k _ ↦ k.ascending⟩)
    (List.forall_mem_cons.mpr ⟨fun _ hs ↦ absurd hs List.not_mem_nil,
      List.forall_mem_map.mpr fun k hk ↦ hdistinct.lt_size k (Array.mem_toList_iff.mp hk)⟩)
  rw [List.length_cons, List.length_map, Array.length_toList] at hle
  exact hle

/-- Different closures differ in a state, and so in their names. -/
theorem Underway.members_differ (h : Underway nfa limit w) {i j : Nat} {l : Nfa.Closure α}
    (hk : w.found[i]? = some k) (hl : w.found[j]? = some l) (hne : i ≠ j) :
    (∃ s, ¬(s ∈ k.members ↔ s ∈ l.members)) ∧ Nfa.setId k.members ≠ Nfa.setId l.members := by
  have hmembers : k.members ≠ l.members := fun heq ↦ hne (h.wired.index_eq hk hl heq)
  refine ⟨?_, fun hid ↦ hmembers (Nfa.eq_of_setId_eq k.ascending l.ascending hid)⟩
  by_contra hsame
  push Not at hsame
  exact hmembers (k.ascending.eq_of_mem_iff l.ascending hsame)

/-- A text that leads to a state leads to the members of its closure. -/
theorem Represents.mem_members_iff {dfa : Dfa α} {found : Found α}
    (h : Represents nfa dfa found) (hr : nfa.InRange) {i : Nat} (hk : found[i]? = some k)
    {text : List Char} (htext : dfa.steps dfa.start text = some i) (s : Nat) :
    s ∈ k.members ↔ s ∈ nfa.reached text := by
  obtain ⟨-, k', hk', hmembers⟩ := (h.steps hr (h.standsFor_start hr) text).1 i htext
  cases hk.symm.trans hk'
  exact hmembers s

/-- As long as a closure has no state, the search can make one more turn. -/
theorem exists_turn (nfa : Nfa α) {w : Progress α} (h : w.states.size < w.found.size) :
    ∃ w', Turn nfa none w w' ∧ w'.states.size = w.states.size + 1 := by
  obtain ⟨⟨found, ts⟩, hconnect⟩ :=
    exists_connect nfa w.found (partition (w.found[w.states.size]).labels)
  exact ⟨_, .finish (Array.getElem?_eq_getElem h) hconnect, Array.size_push _⟩

/-- Without a limit the search always ends: it makes at most one turn for each set of states that is
not empty, and no turn fails.  What it ends with are different sets for different states, none of
them empty and all of them closed under free transitions, and a text that leads to a state leads to
the states of its set. -/
theorem determinize_ends (hr : nfa.InRange) :
    (∀ w, Underway nfa none w →
        w.states.size ≤ w.found.size ∧ w.found.size ≤ 2 ^ nfa.size - 1 ∧
          (w.states.size < w.found.size →
            ∃ w', Turn nfa none w w' ∧ w'.states.size = w.states.size + 1)) ∧
      ∃ dfa found, determinize nfa none = .ok dfa ∧
        Underway nfa none ⟨found, dfa.states⟩ ∧ Represents nfa dfa found ∧
        (∀ (i : Nat) (k : Nfa.Closure α), found[i]? = some k →
          k.members ≠ [] ∧
            (∀ s ∈ k.members, s < nfa.size ∧ ∀ t, nfa.Path s [] t → t ∈ k.members) ∧
            ∀ text, dfa.steps dfa.start text = some i →
              ∀ s, s ∈ k.members ↔ s ∈ nfa.reached text) ∧
        (∀ (i j : Nat) (k l : Nfa.Closure α), found[i]? = some k → found[j]? = some l → i ≠ j →
          (∃ s, ¬(s ∈ k.members ↔ s ∈ l.members)) ∧
            Nfa.setId k.members ≠ Nfa.setId l.members) ∧
        1 ≤ dfa.size ∧ dfa.size ≤ 2 ^ nfa.size - 1 := by
  constructor
  · intro w h
    exact ⟨h.wired.size_states_le, Nat.le_sub_one_of_lt (h.size_found_lt hr), exists_turn nfa⟩
  · obtain ⟨dfa, hdfa⟩ := exists_determinize nfa
    obtain ⟨found, hunderway, hsize⟩ := exists_finished hdfa
    have hrepresents := hunderway.represents hr (start_eq_zero hdfa) hsize
    refine ⟨dfa, found, hdfa, hunderway, hrepresents, ?_, ?_, ?_, ?_⟩
    · intro i k hk
      have hmem : k ∈ found := Array.mem_of_getElem? hk
      have hclosure := hrepresents.isClosure k hmem
      exact ⟨hunderway.members_ne_nil hr hmem, fun s hs ↦
        ⟨hclosure.lt_size s hs, hclosure.closed s hs⟩, fun _ htext ↦
        hrepresents.mem_members_iff hr hk htext⟩
    · intro i j k l hk hl hne
      exact hunderway.members_differ hk hl hne
    · obtain ⟨hlt, -⟩ := Array.getElem?_eq_some_iff.mp hrepresents.start_eq
      exact hsize ▸ Nat.zero_lt_of_lt hlt
    · exact hsize ▸ Nat.le_sub_one_of_lt (hunderway.size_found_lt hr)

/-- Free transitions in a circle, and states that can be met again and again. -/
theorem determinize_ends_in_circles :
    let nfa : Nfa Nat := ⟨0, #[
      ⟨[⟨none, 1⟩, ⟨some (.singleton 'a'), 0⟩], none⟩,
      ⟨[⟨none, 0⟩, ⟨some (CharSet.singleton 'b').compl, 2⟩], none⟩,
      ⟨[⟨some (.singleton 'a'), 1⟩], some 0⟩]⟩
    nfa.InRange ∧ ∃ dfa found, determinize nfa none = .ok dfa ∧ Represents nfa dfa found ∧
      1 ≤ dfa.size ∧ dfa.size ≤ 7 := by
  intro nfa
  have hr : nfa.InRange := by decide
  obtain ⟨-, dfa, found, hdfa, -, hrepresents, -, -, hsize⟩ := determinize_ends hr
  exact ⟨hr, dfa, found, hdfa, hrepresents, hsize⟩

end

end RegexScan.Dfa

import RegexScan.Proofs.Dfa.Deterministic

/-!
# A limit on the states cuts the search off, and does nothing else

Under a limit the search does what it does without one, up to the first closure that is one too
many.  Closures are never given up, so that closure comes if and only if there are too many at the
end, where every closure has become a state.
-/

namespace RegexScan.Dfa

variable {α : Type}

/-- A result under a limit: the result itself if its size keeps to the limit. -/
def within {β : Type} (n size : Nat) (b : β) : Except TooManyStates β :=
  if size ≤ n then .ok b else .error ⟨n⟩

section

variable {β γ : Type} {n size size' : Nat}

theorem within_of_le (h : size ≤ n) (b : β) : within n size b = .ok b := if_pos h

theorem within_of_lt (h : n < size) (b : β) : within n size b = .error ⟨n⟩ :=
  if_neg (Nat.not_le_of_lt h)

/-- What goes on from a result is cut off where the result is, and else where it is itself. -/
theorem within_bind {b : β} {c : γ} {f : β → Except TooManyStates γ} (hle : size ≤ size')
    (hf : size ≤ n → f b = within n size' c) : within n size b >>= f = within n size' c := by
  by_cases h : size ≤ n
  · rw [within_of_le h]
    exact hf h
  · have hlt := Nat.lt_of_not_le h
    rw [within_of_lt hlt, within_of_lt (Nat.lt_of_lt_of_le hlt hle)]
    rfl

end

section

variable {n : Nat} {found found' : Found α} {k : Nfa.Closure α}

/-- A closure is put behind the others if there is room for one more. -/
theorem insert_limited (n : Nat) (found : Found α) (k : Nfa.Closure α) :
    insert (some n) found k = within n (found.size + 1) (found.push k, found.size) := by
  by_cases h : n ≤ found.size
  · rw [within_of_lt (Nat.lt_succ_of_le h)]
    exact if_pos h
  · rw [within_of_le (Nat.lt_of_not_le h)]
    exact if_neg h

/-- A closure that was found before does not count again. -/
theorem locate_limited {i : Nat} (h : locate none found k = .ok (found', i))
    (hle : found.size ≤ n) :
    locate (some n) found k = within n found'.size (found', i) := by
  rw [locate] at h ⊢
  split at h
  · next j hj =>
    cases h
    exact (within_of_le hle _).symm
  · next hnone =>
    cases h
    rw [insert_limited, Array.size_push]

end

section

variable [Min α] {nfa : Nfa α} {n : Nat} {found found' : Found α} {dfa : Dfa α}

theorem size_le_of_connect {limit : Option Nat} {ps : List (Piece Nat)} {ts : List Transition}
    (h : connect nfa limit found ps = .ok (found', ts)) : found.size ≤ found'.size := by
  induction ps generalizing found ts with
  | nil =>
    cases h
    exact Nat.le_refl _
  | cons p ps ih =>
    obtain ⟨mid, i, us, hlocate, hconnect, rfl⟩ := connect_cons_eq_ok_iff.mp h
    exact (grown_locate hlocate).1.size_le.trans (ih hconnect)

/-- The limit may be met at any of the pieces. -/
theorem connect_limited {ps : List (Piece Nat)} {ts : List Transition}
    (h : connect nfa none found ps = .ok (found', ts)) (hle : found.size ≤ n) :
    connect nfa (some n) found ps = within n found'.size (found', ts) := by
  induction ps generalizing found ts with
  | nil =>
    cases h
    exact (within_of_le hle _).symm
  | cons p ps ih =>
    obtain ⟨mid, i, us, hlocate, hconnect, rfl⟩ := connect_cons_eq_ok_iff.mp h
    rw [connect, locate_limited hlocate hle]
    refine within_bind (size_le_of_connect hconnect) fun hmid ↦ ?_
    simp only [ih hconnect hmid]
    exact within_bind (Nat.le_refl _) fun hall ↦ (within_of_le hall _).symm

theorem Turn.size_le {limit : Option Nat} {w w' : Progress α} (h : Turn nfa limit w w') :
    w.found.size ≤ w'.found.size := by
  cases h with
  | finish _ hconnect => exact size_le_of_connect hconnect

/-- The search loses no closure. -/
theorem size_le_of_turns {limit : Option Nat} {w w' : Progress α}
    (h : Relation.ReflTransGen (Turn nfa limit) w w') : w.found.size ≤ w'.found.size := by
  induction h with
  | refl => exact Nat.le_refl _
  | tail _ hturn ih => exact ih.trans hturn.size_le

/-- From the first turn on the closure of the start has been found. -/
theorem Underway.size_found_pos {limit : Option Nat} {w : Progress α}
    (h : Underway nfa limit w) : 0 < w.found.size :=
  Nat.lt_of_lt_of_le Nat.zero_lt_one (size_le_of_turns h)

/-- The search comes to the same end, or else it is cut off because too many closures are found on
the way. -/
theorem explore_limited {fuel : Nat} {states done : Array (State α)}
    (h : explore nfa none fuel found states = .ok done) :
    ∃ all, Relation.ReflTransGen (Turn nfa none) ⟨found, states⟩ ⟨all, done⟩ ∧
      (all.size ≤ done.size ∨ done.size = states.size + fuel) ∧
      ∀ n, found.size ≤ n → explore nfa (some n) fuel found states = within n all.size done := by
  induction fuel generalizing found states with
  | zero =>
    cases h
    exact ⟨found, .refl, .inr rfl, fun _ hle ↦ (within_of_le hle _).symm⟩
  | succ fuel ih =>
    simp only [explore] at h ⊢
    split at h
    · next hnone =>
      cases h
      exact ⟨found, .refl, .inl (Array.getElem?_eq_none_iff.mp hnone),
        fun _ hle ↦ (within_of_le hle _).symm⟩
    · next k hk =>
      obtain ⟨⟨found', ts⟩, hconnect, h⟩ := bind_eq_ok_iff.mp h
      obtain ⟨all, hturns, hstop, hlimited⟩ := ih h
      refine ⟨all, .head (.finish hk hconnect) hturns, hstop.imp_right fun hsize ↦ ?_, ?_⟩
      · rw [hsize, Array.size_push]
        omega
      · intro n hle
        rw [connect_limited hconnect hle]
        exact within_bind (size_le_of_turns hturns) (hlimited n)

/-- Determinizing under a limit comes to the automaton without one, or to nothing if that has too
many states. -/
theorem determinize_eq_within (h : determinize nfa none = .ok dfa) (n : Nat) :
    determinize nfa (some n) = within n dfa.size dfa := by
  obtain ⟨hstart, hexplore⟩ := start_eq_and_explore_eq h
  obtain ⟨all, hturns, hstop, hlimited⟩ := explore_limited hexplore
  have hunderway : Underway nfa none ⟨all, dfa.states⟩ := hturns
  have hwired := hunderway.wired
  -- there is enough fuel for all closures, so each of them has its state
  have hsize : all.size = dfa.size := by
    refine Nat.le_antisymm (hstop.elim id fun hfuel ↦ ?_) hwired.size_states_le
    rw [size, hfuel, Array.size_empty, Nat.zero_add]
    exact hwired.size_le
  rw [determinize, insert_limited, ← hsize]
  refine within_bind (Nat.succ_le_of_lt hunderway.size_found_pos) fun hfirst ↦ ?_
  change explore nfa (some n) (2 ^ nfa.size) #[nfa.closureOf [nfa.start]] #[] >>= _ = _
  rw [hlimited n hfirst]
  refine within_bind (Nat.le_refl _) fun hall ↦ ?_
  rw [within_of_le hall]
  exact congrArg (fun i ↦ Except.ok (Dfa.mk i dfa.states)) hstart.symm

/-- The limit is exact: the automaton is the same as without one if it has no more states than the
limit allows, and there is none at all if it has. -/
theorem determinize_limited (nfa : Nfa α) :
    ∃ dfa, determinize nfa none = .ok dfa ∧
      ∀ n, (dfa.size ≤ n → determinize nfa (some n) = .ok dfa) ∧
        (n < dfa.size → determinize nfa (some n) = .error ⟨n⟩) := by
  obtain ⟨dfa, hdfa⟩ := exists_determinize nfa
  refine ⟨dfa, hdfa, fun n ↦ ⟨fun hle ↦ ?_, fun hlt ↦ ?_⟩⟩
  · rw [determinize_eq_within hdfa, within_of_le hle]
  · rw [determinize_eq_within hdfa, within_of_lt hlt]

end

end RegexScan.Dfa

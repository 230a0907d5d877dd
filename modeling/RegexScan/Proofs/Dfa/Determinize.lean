import RegexScan.Proofs.Dfa.Progress
import RegexScan.Proofs.Dfa.Subset
import RegexScan.Proofs.Nfa.SetId

/-!
# Determinization is exact

Found closures are never lost or moved, so a transition to one stays right while the search goes on.
At its end every closure found is finished, as there are no more closures than fuel.  Then the state
behind a text stands for the states of the other automaton behind it.
-/

namespace RegexScan

namespace Dfa

open Label

variable {α : Type}

/-- The closures found before keep their places. -/
def Grown (found found' : Found α) : Prop :=
  ∀ (i : Nat) (k : Nfa.Closure α), found[i]? = some k → found'[i]? = some k

namespace Grown

variable {found found' found'' : Found α}

theorem refl (found : Found α) : Grown found found := fun _ _ h ↦ h

theorem trans (h : Grown found found') (h' : Grown found' found'') : Grown found found'' :=
  fun i k hk ↦ h' i k (h i k hk)

theorem push (found : Found α) (k : Nfa.Closure α) : Grown found (found.push k) := by
  intro i k' hk'
  obtain ⟨hlt, -⟩ := Array.getElem?_eq_some_iff.mp hk'
  rw [Array.getElem?_push_lt hlt, ← hk', Array.getElem?_eq_getElem hlt]

theorem size_le (h : Grown found found') : found.size ≤ found'.size := by
  by_contra hlt
  have hlast := h found'.size _ (Array.getElem?_eq_getElem (Nat.lt_of_not_le hlt))
  rw [Array.getElem?_eq_none (Nat.le_refl _)] at hlast
  cases hlast

end Grown

/-- A transition for a piece: the same characters lead to the closure of the targets. -/
structure Leads [Min α] (nfa : Nfa α) (found : Found α) (p : Piece Nat) (t : Transition) :
    Prop where
  on_eq : t.on = p.chars
  exists_members_eq : ∃ k, found[t.target]? = some k ∧ k.members = (nfa.closureOf p.targets).members

theorem Leads.grown [Min α] {nfa : Nfa α} {found found' : Found α} {p : Piece Nat} {t : Transition}
    (hgrown : Grown found found') (h : Leads nfa found p t) : Leads nfa found' p t := by
  obtain ⟨k, hk, hmembers⟩ := h.exists_members_eq
  exact ⟨h.on_eq, k, hgrown _ k hk, hmembers⟩

/-- A finished state has the value of its closure and a transition for each piece of its labels. -/
structure Finished [Min α] (nfa : Nfa α) (found : Found α) (k : Nfa.Closure α) (state : State α) :
    Prop where
  accepting_eq : state.accepting = k.accepting
  leads : List.Forall₂ (Leads nfa found) (partition k.labels) state.transitions

/-! ## What each step of the search does -/

section

variable {limit : Option Nat} {found found' : Found α} {k : Nfa.Closure α}

/-- A closure is found at the index of one with the same name, which has the same members, or else
it is a new one and comes last. -/
theorem locate_cases {i : Nat} (h : locate limit found k = .ok (found', i)) :
    (found' = found ∧ ∃ k', found[i]? = some k' ∧ k'.members = k.members) ∨
      found' = found.push k ∧ i = found.size ∧ ∀ k' ∈ found, k'.members ≠ k.members := by
  rw [locate] at h
  split at h
  · next j hj =>
    cases h
    obtain ⟨hlt, hid, -⟩ := Array.findIdx?_eq_some_iff_getElem.mp hj
    exact .inl ⟨rfl, _, Array.getElem?_eq_getElem hlt,
      Nfa.Closure.id_eq_id_iff.mp (eq_of_beq hid)⟩
  · next hnone =>
    obtain ⟨hfound, hi⟩ := eq_push_of_insert h
    refine .inr ⟨hfound, hi, ?_⟩
    intro k' hk' heq
    have hne := Array.findIdx?_eq_none_iff.mp hnone k' hk'
    rw [Nfa.Closure.id_eq_id_iff.mpr heq, BEq.rfl] at hne
    cases hne

/-- Either way a closure with the same members is there afterwards. -/
theorem grown_locate {i : Nat} (h : locate limit found k = .ok (found', i)) :
    Grown found found' ∧ ∃ k', found'[i]? = some k' ∧ k'.members = k.members := by
  rcases locate_cases h with ⟨rfl, hfound⟩ | ⟨rfl, rfl, -⟩
  · exact ⟨.refl found', hfound⟩
  · exact ⟨.push found k, k, Array.getElem?_push_size, rfl⟩

variable [LinearOrder α] {nfa : Nfa α}

/-- Locating a closure keeps the others in place, and the number it gives is the closure's. -/
theorem locate_ok {i : Nat} (h : locate limit found k = .ok (found', i))
    (hfound : Discovered nfa found) (hk : nfa.IsClosure k) :
    Discovered nfa found' ∧ Grown found found' ∧
      ∃ k', found'[i]? = some k' ∧ k'.members = k.members := by
  refine ⟨?_, grown_locate h⟩
  rcases locate_cases h with ⟨rfl, -⟩ | ⟨rfl, -, hnew⟩
  · exact hfound
  · exact hfound.push hk hnew

theorem connect_ok (hr : nfa.InRange) {ps : List (Piece Nat)} {ts : List Transition}
    (h : connect nfa limit found ps = .ok (found', ts)) (hfound : Discovered nfa found)
    (hps : ∀ p ∈ ps, ∀ t ∈ p.targets, t < nfa.size) :
    Discovered nfa found' ∧ Grown found found' ∧ List.Forall₂ (Leads nfa found') ps ts := by
  induction ps generalizing found ts with
  | nil =>
    cases h
    exact ⟨hfound, .refl _, .nil⟩
  | cons p ps ih =>
    obtain ⟨mid, i, us, hlocate, hconnect, rfl⟩ := connect_cons_eq_ok_iff.mp h
    obtain ⟨hmid, hgrown, k, hk, hmembers⟩ := locate_ok hlocate hfound
      (Nfa.isClosure_closureOf hr (hps p List.mem_cons_self))
    obtain ⟨hall, hgrown', hleads⟩ := ih hconnect hmid fun q hq ↦ hps q (.tail _ hq)
    exact ⟨hall, hgrown.trans hgrown', .cons ⟨rfl, k, hgrown' i k hk, hmembers⟩ hleads⟩

end

/-- What holds while the search goes on: the states so far are finished. -/
structure Explored [LinearOrder α] (nfa : Nfa α) (found : Found α) (states : Array (State α)) :
    Prop extends Discovered nfa found where
  size_states_le : states.size ≤ found.size
  finished : ∀ (i : Nat) (state : State α), states[i]? = some state →
    ∃ k, found[i]? = some k ∧ Finished nfa found k state

section

variable [LinearOrder α] {nfa : Nfa α} {limit : Option Nat} {found found' : Found α}
  {states : Array (State α)} {k : Nfa.Closure α} {dfa : Dfa α}

/-- Connecting the pieces of the next closure finishes its state. -/
theorem Explored.push (hr : nfa.InRange) (h : Explored nfa found states)
    (hk : found[states.size]? = some k) {ts : List Transition}
    (hconnect : connect nfa limit found (partition k.labels) = .ok (found', ts)) :
    Explored nfa found' (states.push ⟨ts, k.accepting⟩) ∧ Grown found found' := by
  obtain ⟨hlt, hget⟩ := Array.getElem?_eq_some_iff.mp hk
  have hclosure := h.isClosure k (hget ▸ Array.getElem_mem hlt)
  obtain ⟨hfound', hgrown, hleads⟩ := connect_ok hr hconnect h.toDiscovered fun p hp t ht ↦ by
    obtain ⟨l, hl, rfl⟩ := mem_targets_partition hp ht
    exact hclosure.target_lt l hl
  refine ⟨⟨hfound', ?_, ?_⟩, hgrown⟩
  · rw [Array.size_push]
    exact Nat.lt_of_lt_of_le hlt hgrown.size_le
  · intro i state hstate
    rw [Array.getElem?_push] at hstate
    split at hstate
    · next hi =>
      cases hstate
      subst hi
      exact ⟨k, hgrown _ k hk, rfl, hleads⟩
    · obtain ⟨k', hk', hfinished⟩ := h.finished i state hstate
      exact ⟨k', hgrown i k' hk', hfinished.accepting_eq,
        hfinished.leads.imp fun _ _ hleads ↦ hleads.grown hgrown⟩

/-- Wherever the search comes to, the states so far are finished, and the first closure is that of
the start. -/
theorem Underway.explored (hr : nfa.InRange) {w : Progress α} (h : Underway nfa limit w) :
    Explored nfa w.found w.states ∧ w.found[0]? = some (nfa.closureOf [nfa.start]) := by
  induction h with
  | refl =>
    have hclosure : nfa.IsClosure (nfa.closureOf [nfa.start]) :=
      Nfa.isClosure_closureOf hr fun s hs ↦ List.mem_singleton.mp hs ▸ hr.start_lt
    have hfirst : Discovered nfa (#[].push (nfa.closureOf [nfa.start])) :=
      (discovered_empty nfa).push hclosure fun _ hk ↦ absurd hk (Array.not_mem_empty _)
    exact ⟨⟨hfirst, Nat.zero_le _, fun i state hstate ↦ by cases hstate⟩, rfl⟩
  | tail _ hturn ih =>
    cases hturn with
    | finish hk hconnect =>
      obtain ⟨hexplored, hgrown⟩ := ih.1.push hr hk hconnect
      exact ⟨hexplored, hgrown 0 _ ih.2⟩

/-- The closures that the states of a whole automaton stand for, with that of the start at the
start. -/
structure Represents (nfa : Nfa α) (dfa : Dfa α) (found : Found α) : Prop
    extends Explored nfa found dfa.states where
  size_eq : found.size = dfa.states.size
  start_eq : found[dfa.start]? = some (nfa.closureOf [nfa.start])

/-- A search that has come to its end represents the automaton. -/
theorem Underway.represents (hr : nfa.InRange) (h : Underway nfa limit ⟨found, dfa.states⟩)
    (hstart : dfa.start = 0) (hsize : found.size = dfa.states.size) : Represents nfa dfa found := by
  obtain ⟨hexplored, hfirst⟩ := h.explored hr
  exact ⟨hexplored, hsize, hstart ▸ hfirst⟩

/-- What `determinize` returns represents the automaton, closure by closure. -/
theorem exists_represents (hr : nfa.InRange) (h : determinize nfa limit = .ok dfa) :
    ∃ found, Represents nfa dfa found := by
  obtain ⟨found, hunderway, hstop⟩ := exists_underway h
  have hexplored := (hunderway.explored hr).1
  exact ⟨found, hunderway.represents hr (start_eq_zero h)
    (Nat.le_antisymm (hstop hexplored.size_le) hexplored.size_states_le)⟩

end

/-! ## Without a limit there is no failure -/

section

theorem exists_locate (found : Found α) (k : Nfa.Closure α) :
    ∃ located, locate none found k = .ok located := by
  rw [locate]
  split
  · exact ⟨_, rfl⟩
  · exact ⟨_, rfl⟩

variable [Min α]

theorem exists_connect (nfa : Nfa α) (found : Found α) (ps : List (Piece Nat)) :
    ∃ connected, connect nfa none found ps = .ok connected := by
  induction ps generalizing found with
  | nil => exact ⟨_, rfl⟩
  | cons p ps ih =>
    obtain ⟨⟨mid, i⟩, hlocate⟩ := exists_locate found (nfa.closureOf p.targets)
    obtain ⟨⟨all, us⟩, hconnect⟩ := ih mid
    exact ⟨(all, _), connect_cons_eq_ok_iff.mpr ⟨mid, i, us, hlocate, hconnect, rfl⟩⟩

theorem exists_explore (nfa : Nfa α) (fuel : Nat) (found : Found α) (states : Array (State α)) :
    ∃ done, explore nfa none fuel found states = .ok done := by
  induction fuel generalizing found states with
  | zero => exact ⟨_, rfl⟩
  | succ fuel ih =>
    rw [explore]
    split
    · exact ⟨_, rfl⟩
    · next k _ =>
      obtain ⟨⟨found', ts⟩, hconnect⟩ := exists_connect nfa found (partition k.labels)
      obtain ⟨done, hexplore⟩ := ih found' (states.push ⟨ts, k.accepting⟩)
      exact ⟨done, bind_eq_ok_iff.mpr ⟨_, hconnect, hexplore⟩⟩

/-- Without a limit, determinization cannot fail. -/
theorem exists_determinize (nfa : Nfa α) : ∃ dfa, determinize nfa none = .ok dfa := by
  obtain ⟨states, hexplore⟩ := exists_explore nfa (2 ^ nfa.size) #[nfa.closureOf [nfa.start]] #[]
  exact ⟨⟨0, states⟩, bind_eq_ok_iff.mpr ⟨_, rfl, bind_eq_ok_iff.mpr ⟨_, hexplore, rfl⟩⟩⟩

end

/-! ## Reading a text -/

section

variable [LinearOrder α] {nfa : Nfa α} {limit : Option Nat} {found : Found α} {dfa : Dfa α}
  {i : Nat} {k : Nfa.Closure α} {v : List Char}

/-- The transition that decides about a character is the one for the piece that does. -/
theorem rel_find? {ps : List (Piece Nat)} {ts : List Transition}
    (h : List.Forall₂ (Leads nfa found) ps ts) (c : Char) :
    Option.Rel (Leads nfa found) (ps.find? (·.chars.contains c)) (ts.find? (·.on.contains c)) := by
  induction h with
  | nil => exact .none
  | cons hleads _ ih =>
    rw [List.find?_cons, List.find?_cons, hleads.on_eq]
    split
    · exact .some hleads
    · exact ih

/-- A state stands for a set of states of the other automaton. -/
structure StandsFor (found : Found α) (i : Nat) (S : Set Nat) : Prop where
  nonempty : S.Nonempty
  exists_members : ∃ k, found[i]? = some k ∧ ∀ t, t ∈ k.members ↔ t ∈ S

/-- The start stands for what the empty word reaches. -/
theorem Represents.standsFor_start (hr : nfa.InRange) (h : Represents nfa dfa found) :
    StandsFor found dfa.start (nfa.reached []) := by
  refine ⟨⟨nfa.start, .refl _⟩, _, h.start_eq, ?_⟩
  intro t
  rw [Nfa.mem_members_closureOf hr fun s hs ↦ List.mem_singleton.mp hs ▸ hr.start_lt]
  simp only [List.mem_singleton, exists_eq_left]
  rfl

/-- A character leads to the closure of the targets that the labels have for it. -/
theorem Represents.step_cases (h : Represents nfa dfa found) (hk : found[i]? = some k) (c : Char) :
    targetsOn c k.labels = [] ∧ dfa.step i c = none ∨
      targetsOn c k.labels ≠ [] ∧ ∃ j k', dfa.step i c = some j ∧ found[j]? = some k' ∧
        k'.members = (nfa.closureOf (targetsOn c k.labels)).members := by
  obtain ⟨state, hstate⟩ : ∃ state, dfa.states[i]? = some state := by
    obtain ⟨hlt, -⟩ := Array.getElem?_eq_some_iff.mp hk
    exact ⟨_, Array.getElem?_eq_getElem (h.size_eq ▸ hlt)⟩
  obtain ⟨k', hk', hfinished⟩ := h.finished i state hstate
  cases hk.symm.trans hk'
  have hfind := find?_partition c k.labels
  have hrel := rel_find? hfinished.leads c
  simp only [step, transitionsFrom, hstate]
  generalize (partition k.labels).find? (·.chars.contains c) = decider at hfind hrel
  generalize state.transitions.find? (·.on.contains c) = taken at hrel ⊢
  cases hrel with
  | none =>
    refine .inl ⟨?_, rfl⟩
    by_contra hne
    rw [if_neg hne] at hfind
    cases hfind
  | @some p t hleads =>
    obtain ⟨k', hk', hmembers⟩ := hleads.exists_members_eq
    split at hfind
    · cases hfind
    · next hne =>
      have htargets : p.targets = targetsOn c k.labels := Option.some.inj hfind
      exact .inr ⟨hne, t.target, k', rfl, hk', htargets ▸ hmembers⟩

/-- One character takes a state to one that stands for where the character leads. -/
theorem Represents.step (hr : nfa.InRange) (h : Represents nfa dfa found)
    (hi : StandsFor found i (nfa.reached v)) (c : Char) :
    (∀ j, dfa.step i c = some j → StandsFor found j (nfa.reached (v ++ [c]))) ∧
      (dfa.step i c = none → nfa.reached (v ++ [c]) = ∅) := by
  obtain ⟨k, hk, hmembers⟩ := hi.exists_members
  have hclosure : nfa.IsClosure k := by
    obtain ⟨hlt, rfl⟩ := Array.getElem?_eq_some_iff.mp hk
    exact h.isClosure _ (Array.getElem_mem hlt)
  have hreached : ∀ t, t ∈ (nfa.closureOf (targetsOn c k.labels)).members ↔
      t ∈ nfa.reached (v ++ [c]) := by
    intro t
    simp only [hclosure.mem_closureOf_targetsOn hr, hmembers, Nfa.mem_reached_append]
  rcases h.step_cases hk c with ⟨hnil, hnone⟩ | ⟨hne, j, k', hsome, hk', hmembers'⟩
  · refine ⟨fun j hj ↦ (nomatch hnone.symm.trans hj), ?_⟩
    intro _
    rw [Set.eq_empty_iff_forall_notMem]
    intro t ht
    obtain ⟨s, hs, hpath⟩ := Nfa.mem_reached_append.mp ht
    obtain ⟨r, κ, u, hsr, he, hc, -⟩ := hpath.exists_of_cons
    have hu := (hclosure.mem_targetsOn c u).mpr
      ⟨r, hclosure.closed s ((hmembers s).mpr hs) r hsr, κ, he, hc⟩
    rw [hnil] at hu
    exact absurd hu List.not_mem_nil
  · refine ⟨?_, fun hnone ↦ nomatch hsome.symm.trans hnone⟩
    intro j' hj'
    cases hsome.symm.trans hj'
    refine ⟨?_, k', hk', fun t ↦ by rw [hmembers', hreached]⟩
    obtain ⟨u, hu⟩ := List.exists_mem_of_ne_nil _ hne
    obtain ⟨s, hs, κ, he, hc⟩ := (hclosure.mem_targetsOn c u).mp hu
    exact ⟨u, Nfa.mem_reached_append.mpr ⟨s, (hmembers s).mp hs, .single he hc⟩⟩

/-- So does a whole text. -/
theorem Represents.steps (hr : nfa.InRange) (h : Represents nfa dfa found)
    (hi : StandsFor found i (nfa.reached v)) (w : List Char) :
    (∀ j, dfa.steps i w = some j → StandsFor found j (nfa.reached (v ++ w))) ∧
      (dfa.steps i w = none → nfa.reached (v ++ w) = ∅) := by
  induction w generalizing i v with
  | nil =>
    rw [List.append_nil]
    refine ⟨?_, nofun⟩
    intro j hj
    cases hj
    exact hi
  | cons c w ih =>
    obtain ⟨hsome, hnone⟩ := h.step hr hi c
    rw [Dfa.steps, List.append_cons]
    cases hstep : dfa.step i c with
    | some j => exact ih (hsome j hstep)
    | none =>
      refine ⟨nofun, ?_⟩
      intro _
      rw [Set.eq_empty_iff_forall_notMem]
      intro t ht
      obtain ⟨s, hs, -⟩ := Nfa.mem_reached_append.mp ht
      rw [hnone hstep] at hs
      exact hs

/-- The value of a state is the smallest one of the states that it stands for. -/
theorem Represents.accepting (h : Represents nfa dfa found) {w : List Char}
    (hi : StandsFor found i (nfa.reached w)) :
    (∀ a, dfa.accepting? i = some a ↔ IsLeast (nfa.accepted w) a) ∧
      (dfa.accepting? i = none ↔ nfa.accepted w = ∅) := by
  obtain ⟨k, hk, hmembers⟩ := hi.exists_members
  obtain ⟨hlt, rfl⟩ := Array.getElem?_eq_some_iff.mp hk
  have hclosure := h.isClosure _ (Array.getElem_mem hlt)
  have hvalues : nfa.valuesOf found[i].members = nfa.accepted w := by
    ext a
    simp only [Nfa.valuesOf, hmembers]
    rfl
  have haccepting : dfa.accepting? i = found[i].accepting := by
    obtain ⟨k', hk', hfinished⟩ := h.finished i _ (Array.getElem?_eq_getElem (h.size_eq ▸ hlt))
    cases hk.symm.trans hk'
    rw [accepting?, Array.getElem?_eq_getElem (h.size_eq ▸ hlt)]
    exact hfinished.accepting_eq
  rw [← hvalues, haccepting]
  exact ⟨hclosure.accepting_eq_some, hclosure.accepting_eq_none⟩

variable {s : Nat} {w : List Char}

/-- The state that a word leads to stands for the states that the word reaches. -/
theorem standsFor_steps (hr : nfa.InRange) (h : determinize nfa limit = .ok dfa)
    (hs : dfa.steps dfa.start w = some s) :
    ∃ found, Represents nfa dfa found ∧ StandsFor found s (nfa.reached w) := by
  obtain ⟨found, hfound⟩ := exists_represents hr h
  exact ⟨found, hfound, (hfound.steps hr (hfound.standsFor_start hr) w).1 s hs⟩

/-- A word leads somewhere exactly when there is a path along it. -/
theorem isSome_steps_iff (hr : nfa.InRange) (h : determinize nfa limit = .ok dfa) :
    (dfa.steps dfa.start w).isSome ↔ ∃ t, nfa.Path nfa.start w t := by
  obtain ⟨found, hfound⟩ := exists_represents hr h
  obtain ⟨hsome, hnone⟩ := hfound.steps hr (hfound.standsFor_start hr) w
  cases hs : dfa.steps dfa.start w with
  | some s => exact ⟨fun _ ↦ (hsome s hs).nonempty, fun _ ↦ rfl⟩
  | none =>
    refine ⟨nofun, ?_⟩
    rintro ⟨t, ht⟩
    exact absurd (hnone hs ▸ ht : t ∈ (∅ : Set Nat)) (Set.notMem_empty t)

/-- Behind a word the least of the values that the word is accepted with is the value. -/
theorem accepting?_eq_some_iff (hr : nfa.InRange) (h : determinize nfa limit = .ok dfa)
    (hs : dfa.steps dfa.start w = some s) (a : α) :
    dfa.accepting? s = some a ↔ IsLeast (nfa.accepted w) a := by
  obtain ⟨found, hfound, hstands⟩ := standsFor_steps hr h hs
  exact (hfound.accepting hstands).1 a

theorem accepting?_eq_none_iff (hr : nfa.InRange) (h : determinize nfa limit = .ok dfa)
    (hs : dfa.steps dfa.start w = some s) :
    dfa.accepting? s = none ↔ nfa.accepted w = ∅ := by
  obtain ⟨found, hfound, hstands⟩ := standsFor_steps hr h hs
  exact (hfound.accepting hstands).2

/-- The deterministic automaton gets through a text just when the other one does, and accepts the
smallest value that the other one accepts. -/
theorem determinize_accepts_least (hr : nfa.InRange) (h : determinize nfa limit = .ok dfa)
    (w : List Char) :
    ((dfa.steps dfa.start w).isSome ↔ ∃ t, nfa.Path nfa.start w t) ∧
      ∀ s, dfa.steps dfa.start w = some s →
        (∀ a, dfa.accepting? s = some a ↔ IsLeast (nfa.accepted w) a) ∧
          (dfa.accepting? s = none ↔ nfa.accepted w = ∅) :=
  ⟨isSome_steps_iff hr h, fun _ hs ↦
    ⟨accepting?_eq_some_iff hr h hs, accepting?_eq_none_iff hr h hs⟩⟩

/-- Free transitions in a circle, and labels that overlap: `a` leads to both values, and the smaller
one counts. -/
theorem determinize_two_values :
    let nfa : Nfa Nat := ⟨1, #[
      ⟨[⟨none, 1⟩, ⟨some (CharSet.singleton 'b').compl, 2⟩], none⟩,
      ⟨[⟨none, 0⟩, ⟨some (.singleton 'a'), 3⟩], none⟩, ⟨[], some 2⟩, ⟨[], some 1⟩]⟩
    nfa.InRange ∧ ∃ dfa, determinize nfa none = .ok dfa ∧
      ∃ s, dfa.steps dfa.start ['a'] = some s ∧ dfa.accepting? s = some 1 := by
  intro nfa
  have hr : nfa.InRange := by decide
  obtain ⟨dfa, h⟩ := exists_determinize nfa
  obtain ⟨hsome, haccepting⟩ := determinize_accepts_least hr h ['a']
  have hpath : nfa.Path nfa.start ['a'] 3 := .single (k := .singleton 'a') (by decide) (by decide)
  obtain ⟨s, hs⟩ := Option.isSome_iff_exists.mp (hsome.mpr ⟨3, hpath⟩)
  refine ⟨hr, dfa, h, s, hs, ((haccepting s hs).1 1).mpr ⟨⟨3, hpath, rfl⟩, ?_⟩⟩
  rintro a ⟨t, -, ht⟩
  have hpos : ∀ t < nfa.size, ∀ a ∈ nfa.accepting? t, 1 ≤ a := by decide
  exact hpos t (Nfa.lt_size_of_accepting? ht) a ht

end

end Dfa

end RegexScan

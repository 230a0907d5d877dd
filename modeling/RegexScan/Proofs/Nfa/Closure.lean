import Mathlib.Data.List.Nodup
import RegexScan.Nfa.Closure
import RegexScan.Proofs.Nfa.Path

/-!
# The free closure is exact

The search marks a state when it puts it on its stack.  So the marked states are those found and
those still on the stack, all of them reachable, and whatever a found state leads to is marked.
No state is put on the stack twice, so the search ends, and when nothing is left on the stack, the
states found are closed under free transitions.
-/

namespace RegexScan.Nfa

variable {α : Type}

namespace Search

/-- From `w` to `w'` the states `new`, none of them marked before, are marked and put on the
stack. -/
structure Pushed (w w' : Search) (new : List Nat) : Prop where
  size_eq : w'.marked.size = w.marked.size
  stack_eq : w'.stack = new ++ w.stack
  marked_iff : ∀ s, w'.marked[s]? = some true ↔ w.marked[s]? = some true ∨ s ∈ new
  fresh : ∀ s ∈ new, w.marked[s]? ≠ some true
  nodup : new.Nodup

theorem Pushed.refl (w : Search) : Pushed w w [] :=
  ⟨rfl, rfl, by simp, by simp, .nil⟩

theorem Pushed.trans {w w' w'' : Search} {new new' : List Nat} (h : Pushed w w' new)
    (h' : Pushed w' w'' new') : Pushed w w'' (new' ++ new) where
  size_eq := h'.size_eq.trans h.size_eq
  stack_eq := by rw [h'.stack_eq, h.stack_eq, List.append_assoc]
  marked_iff s := by
    rw [h'.marked_iff, h.marked_iff, List.mem_append, or_assoc, or_comm (a := s ∈ new)]
  fresh s hs := by
    rcases List.mem_append.mp hs with hs | hs
    · exact fun hm ↦ h'.fresh s hs ((h.marked_iff s).mpr (.inl hm))
    · exact h.fresh s hs
  nodup := by
    refine List.nodup_append.mpr ⟨h'.nodup, h.nodup, ?_⟩
    intro s hs t ht hst
    exact h'.fresh s hs ((h.marked_iff s).mpr (.inr (hst ▸ ht)))

/-- A push puts at most the state itself on the stack, and marks it. -/
theorem pushed_push (w : Search) (s : Nat) :
    ∃ new, Pushed w (w.push s) new ∧ (∀ t ∈ new, t = s) ∧
      (s < w.marked.size → (w.push s).marked[s]? = some true) := by
  unfold push
  split
  · next h =>
    obtain ⟨hs, -⟩ := Array.getElem?_eq_some_iff.mp h
    refine ⟨[s], ⟨by simp, rfl, ?_, ?_, List.nodup_singleton s⟩, by simp, ?_⟩
    · intro t
      rw [Array.getElem?_setIfInBounds, List.mem_singleton]
      by_cases hst : s = t
      · simp [hst, hst ▸ hs]
      · simp [hst, Ne.symm hst]
    · intro t ht
      rw [List.mem_singleton.mp ht, h]
      simp
    · intro _
      rw [Array.getElem?_setIfInBounds, if_pos rfl, if_pos hs]
  · next h =>
    refine ⟨[], .refl w, by simp, ?_⟩
    intro hs
    rw [Array.getElem?_eq_getElem hs] at h ⊢
    cases hm : w.marked[s] with
    | false => exact absurd (congrArg some hm) h
    | true => rfl

/-- All targets of free transitions are marked, and only they. -/
theorem pushed_pushFree (w : Search) (ts : List Transition) :
    ∃ new, Pushed w (w.pushFree ts) new ∧ (∀ t ∈ new, ⟨none, t⟩ ∈ ts) ∧
      ∀ t, ⟨none, t⟩ ∈ ts → t < w.marked.size → (w.pushFree ts).marked[t]? = some true := by
  induction ts with
  | nil => exact ⟨[], .refl w, by simp, by simp⟩
  | cons e ts ih =>
    obtain ⟨new, hpushed, hnew, hmarked⟩ := ih
    rw [show w.pushFree (e :: ts) =
      if e.isFree then (w.pushFree ts).push e.target else w.pushFree ts from rfl]
    obtain ⟨on, s⟩ := e
    cases on with
    | none =>
      obtain ⟨new', hpushed', hnew', hmarked'⟩ := pushed_push (w.pushFree ts) s
      refine ⟨new' ++ new, hpushed.trans hpushed', ?_, ?_⟩
      · intro t ht
        rcases List.mem_append.mp ht with ht | ht
        · rw [hnew' t ht]
          exact List.mem_cons_self
        · exact List.mem_cons_of_mem _ (hnew t ht)
      · intro t ht hlt
        rcases List.mem_cons.mp ht with heq | ht
        · cases heq
          exact hmarked' (by rwa [hpushed.size_eq])
        · exact (hpushed'.marked_iff t).mpr (.inl (hmarked t ht hlt))
    | some k =>
      refine ⟨new, hpushed, fun t ht ↦ List.mem_cons_of_mem _ (hnew t ht), ?_⟩
      intro t ht hlt
      rcases List.mem_cons.mp ht with heq | ht
      · cases heq
      · exact hmarked t ht hlt

/-- The marked states are those found and those on the stack, and none occurs twice. -/
structure Accounts (w : Search) (found : List Nat) : Prop where
  marked_iff : ∀ s, w.marked[s]? = some true ↔ s ∈ found ∨ s ∈ w.stack
  nodup : (found ++ w.stack).Nodup

/-- The account of marked states survives a push. -/
theorem Accounts.pushed {w w' : Search} {found new : List Nat} (h : w.Accounts found)
    (hpushed : Pushed w w' new) : w'.Accounts found where
  marked_iff s := by
    rw [hpushed.marked_iff, h.marked_iff, hpushed.stack_eq, List.mem_append, or_assoc,
      or_comm (a := s ∈ w.stack)]
  nodup := by
    rw [hpushed.stack_eq, (List.perm_append_comm_assoc found new w.stack).nodup_iff]
    refine List.nodup_append.mpr ⟨hpushed.nodup, h.nodup, ?_⟩
    intro s hs t ht hst
    exact hpushed.fresh s hs ((h.marked_iff s).mpr (List.mem_append.mp (hst ▸ ht)))

theorem Accounts.pop {marked : Array Bool} {stack found : List Nat} {s : Nat}
    (h : Accounts ⟨marked, s :: stack⟩ found) : Accounts ⟨marked, stack⟩ (s :: found) where
  marked_iff t := by
    rw [h.marked_iff, List.mem_cons, List.mem_cons, or_left_comm, or_assoc]
  nodup := List.perm_middle.nodup_iff.mp h.nodup

end Search

/-! ## Turn by turn -/

/-- How far a search has come: the starting states still to come, the marks and the stack, and the
states found, the last one first. -/
structure Progress where
  starters : List Nat
  search : Search
  found : List Nat

namespace Progress

/-- A search begins with nothing marked. -/
def first (nfa : Nfa α) (starters : List Nat) : Progress :=
  ⟨starters, ⟨Array.replicate nfa.size false, []⟩, []⟩

/-- How many turns can follow at most. -/
def left (w : Progress) : Nat :=
  w.starters.length + (w.search.unmarked + w.search.stack.length)

/-- At the start a turn is left for each starter and each state. -/
theorem left_first (nfa : Nfa α) (starters : List Nat) :
    (first nfa starters).left = starters.length + nfa.size := by
  simp [left, first, Search.unmarked]

end Progress

/-- One turn of the search.  The state on top of the stack is found, and what free transitions lead
to from there is pushed; when the stack is empty, the next starting state is pushed. -/
inductive Turn (nfa : Nfa α) : Progress → Progress → Prop
  | start {marked : Array Bool} {s : Nat} {starters found : List Nat} :
      Turn nfa ⟨s :: starters, ⟨marked, []⟩, found⟩ ⟨starters, Search.push ⟨marked, []⟩ s, found⟩
  | expand {marked : Array Bool} {s : Nat} {starters stack found : List Nat} :
      Turn nfa ⟨starters, ⟨marked, s :: stack⟩, found⟩
        ⟨starters, Search.pushFree ⟨marked, stack⟩ (nfa.transitionsFrom s), s :: found⟩

/-- `nfa.Turns n w w'` holds when `n` turns lead from `w` to `w'`. -/
inductive Turns (nfa : Nfa α) : Nat → Progress → Progress → Prop
  | refl (w : Progress) : Turns nfa 0 w w
  | head {n : Nat} {w w' w'' : Progress} :
      Turn nfa w w' → Turns nfa n w' w'' → Turns nfa (n + 1) w w''

section

variable {nfa : Nfa α} {w w' w'' : Progress} {m n : Nat}

theorem Turns.trans (h : nfa.Turns m w w') (h' : nfa.Turns n w' w'') :
    nfa.Turns (m + n) w w'' := by
  induction h with
  | refl => rwa [Nat.zero_add]
  | @head m _ _ _ hturn _ ih =>
    rw [Nat.add_right_comm]
    exact .head hturn (ih h')

/-- Every turn takes a starting state or a state from the stack, and what it pushes was not marked
before. -/
theorem Turn.left_eq (h : nfa.Turn w w') : w'.left + 1 = w.left := by
  cases h with
  | @start marked s starters found =>
    have hmeasure := Search.push_measure ⟨marked, []⟩ s
    simp only [Progress.left, hmeasure, List.length_cons]
    omega
  | @expand marked s starters stack found =>
    have hmeasure := Search.pushFree_measure ⟨marked, stack⟩ (nfa.transitionsFrom s)
    have hunmarked : Search.unmarked ⟨marked, stack⟩ = Search.unmarked ⟨marked, s :: stack⟩ := rfl
    simp only [Progress.left, hmeasure, hunmarked, List.length_cons]
    omega

/-- Each turn uses up one of the turns that are left. -/
theorem Turns.left_eq (h : nfa.Turns n w w') : w'.left + n = w.left := by
  induction h with
  | refl => rfl
  | head hturn _ ih => rw [← hturn.left_eq, ← ih, Nat.add_assoc]

/-- No run of the search is longer than the starters and the states together. -/
theorem Turns.le_of_first {starters : List Nat} (h : nfa.Turns n (.first nfa starters) w) :
    n ≤ starters.length + nfa.size := by
  rw [← Progress.left_first, ← h.left_eq]
  exact Nat.le_add_left n w.left

/-- Draining the stack is a run of the search. -/
theorem exists_turns_drain (nfa : Nfa α) (starters : List Nat) (w : Search) (found : List Nat) :
    ∃ n, nfa.Turns n ⟨starters, w, found⟩
      ⟨starters, ⟨(nfa.drain w found).1, []⟩, (nfa.drain w found).2⟩ := by
  induction w, found using Nfa.drain.induct nfa with
  | case1 found marked =>
    rw [Nfa.drain]
    exact ⟨0, .refl _⟩
  | case2 found marked s stack ih =>
    obtain ⟨n, hturns⟩ := ih
    rw [Nfa.drain]
    exact ⟨n + 1, .head .expand hturns⟩

/-- Search from one more starting state, with the marks made so far. -/
def searchFrom (nfa : Nfa α) (searched : Array Bool × List Nat) (s : Nat) : Array Bool × List Nat :=
  nfa.drain (Search.push ⟨searched.1, []⟩ s) searched.2

theorem closure_eq (nfa : Nfa α) (starters : List Nat) :
    nfa.closure starters =
      (starters.foldl nfa.searchFrom (Array.replicate nfa.size false, [])).2.reverse := rfl

/-- The closure as defined is the end of a run of turns. -/
theorem exists_turns_foldl (nfa : Nfa α) (ss : List Nat) (searched : Array Bool × List Nat) :
    ∃ n, nfa.Turns n ⟨ss, ⟨searched.1, []⟩, searched.2⟩
      ⟨[], ⟨(ss.foldl nfa.searchFrom searched).1, []⟩, (ss.foldl nfa.searchFrom searched).2⟩ := by
  induction ss generalizing searched with
  | nil => exact ⟨0, .refl _⟩
  | cons s ss ih =>
    obtain ⟨m, hdrain⟩ := exists_turns_drain nfa ss (Search.push ⟨searched.1, []⟩ s) searched.2
    obtain ⟨n, hrest⟩ := ih (nfa.searchFrom searched s)
    exact ⟨m + n + 1, .head .start (hdrain.trans hrest)⟩

/-- The closure is what a search has found at its end. -/
theorem exists_turns_closure (nfa : Nfa α) (starters : List Nat) :
    ∃ n marked, nfa.Turns n (.first nfa starters)
      ⟨[], ⟨marked, []⟩, (nfa.closure starters).reverse⟩ := by
  obtain ⟨n, hturns⟩ := exists_turns_foldl nfa starters (Array.replicate nfa.size false, [])
  rw [closure_eq, List.reverse_reverse]
  exact ⟨n, _, hturns⟩

end

/-! ## What holds throughout

Marks, stack and found states agree wherever the transitions lead.  That the states found are closed
under free transitions needs more: a target that does not exist is never marked. -/

section

variable {nfa : Nfa α} {w w' : Progress} {n : Nat}

/-- One turn keeps the account of what is marked, stacked and found. -/
theorem Turn.accounts (hturn : nfa.Turn w w') (h : w.search.Accounts w.found) :
    w'.search.Accounts w'.found ∧ w'.search.marked.size = w.search.marked.size := by
  cases hturn with
  | start =>
    obtain ⟨new, hpushed, -⟩ := Search.pushed_push ⟨_, []⟩ _
    exact ⟨h.pushed hpushed, hpushed.size_eq⟩
  | expand =>
    obtain ⟨new, hpushed, -⟩ := Search.pushed_pushFree ⟨_, _⟩ (nfa.transitionsFrom _)
    exact ⟨h.pop.pushed hpushed, hpushed.size_eq⟩

theorem Turns.accounts (hturns : nfa.Turns n w w') (h : w.search.Accounts w.found) :
    w'.search.Accounts w'.found ∧ w'.search.marked.size = w.search.marked.size := by
  induction hturns with
  | refl => exact ⟨h, rfl⟩
  | head hturn _ ih =>
    obtain ⟨hnext, hsize⟩ := hturn.accounts h
    exact (ih hnext).imp_right (·.trans hsize)

end

/-- Every transition leads to a state that exists. -/
def TargetsExist (nfa : Nfa α) : Prop :=
  ∀ s, ∀ t ∈ nfa.transitionsFrom s, t.target < nfa.size

/-- In an automaton without dangling indices every target exists. -/
theorem InRange.targetsExist {nfa : Nfa α} (h : nfa.InRange) : nfa.TargetsExist :=
  fun _ _ ht ↦ h.target_lt ht

/-- What holds throughout the search from some starting states. -/
structure Searched (nfa : Nfa α) (starters : List Nat) (w : Search) (found : List Nat) : Prop
    extends w.Accounts found where
  size_eq : w.marked.size = nfa.size
  reached : ∀ s, w.marked[s]? = some true → ∃ r ∈ starters, nfa.Path r [] s
  closed : ∀ s ∈ found, ∀ t, ⟨none, t⟩ ∈ nfa.transitionsFrom s → w.marked[t]? = some true

namespace Searched

variable {nfa : Nfa α} {starters : List Nat} {w : Search} {found : List Nat} {s : Nat}

theorem init (nfa : Nfa α) (starters : List Nat) :
    nfa.Searched starters ⟨Array.replicate nfa.size false, []⟩ [] := by
  have hnone : ∀ s : Nat, (Array.replicate nfa.size false)[s]? ≠ some true := by
    intro s
    rw [Array.getElem?_replicate]
    split <;> simp
  exact ⟨⟨by simp [hnone], .nil⟩, by simp, fun s hs ↦ absurd hs (hnone s), by simp⟩

theorem push (h : nfa.Searched starters w found) (hs : s ∈ starters) :
    nfa.Searched starters (w.push s) found := by
  obtain ⟨new, hpushed, hnew, -⟩ := Search.pushed_push w s
  refine ⟨h.toAccounts.pushed hpushed, hpushed.size_eq.trans h.size_eq, ?_,
    fun r hr t ht ↦ (hpushed.marked_iff t).mpr (.inl (h.closed r hr t ht))⟩
  intro t ht
  rcases (hpushed.marked_iff t).mp ht with ht | ht
  · exact h.reached t ht
  · rw [hnew t ht]
    exact ⟨s, hs, .refl s⟩

theorem expand {marked : Array Bool} {stack : List Nat} (ht : nfa.TargetsExist)
    (h : nfa.Searched starters ⟨marked, s :: stack⟩ found) :
    nfa.Searched starters (Search.pushFree ⟨marked, stack⟩ (nfa.transitionsFrom s))
      (s :: found) := by
  obtain ⟨new, hpushed, hnew, hmarked⟩ :=
    Search.pushed_pushFree ⟨marked, stack⟩ (nfa.transitionsFrom s)
  refine ⟨h.toAccounts.pop.pushed hpushed, hpushed.size_eq.trans h.size_eq, ?_, ?_⟩
  · intro t ht
    rcases (hpushed.marked_iff t).mp ht with ht | ht
    · exact h.reached t ht
    · obtain ⟨r, hr, hpath⟩ := h.reached s ((h.marked_iff s).mpr (.inr List.mem_cons_self))
      exact ⟨r, hr, hpath.trans (.free (hnew t ht) (.refl t))⟩
  · intro r hr t hrt
    rcases List.mem_cons.mp hr with rfl | hr
    · exact hmarked t hrt (h.size_eq ▸ ht r _ hrt)
    · exact (hpushed.marked_iff t).mpr (.inl (h.closed r hr t hrt))

end Searched

/-- A whole search: besides, every starting state is still to come or is marked. -/
structure Progress.Sound (nfa : Nfa α) (starters : List Nat) (w : Progress) : Prop
    extends nfa.Searched starters w.search w.found where
  subset : w.starters ⊆ starters
  begun : ∀ s ∈ starters, s ∈ w.starters ∨ w.search.marked[s]? = some true

section

variable {nfa : Nfa α} {starters : List Nat} {w w' : Progress} {n s t : Nat}

/-- One turn keeps the search sound: what is found is reached, and what is found was
expanded. -/
theorem Turn.sound (ht : nfa.TargetsExist) (hs : ∀ s ∈ starters, s < nfa.size)
    (hturn : nfa.Turn w w') (h : w.Sound nfa starters) : w'.Sound nfa starters := by
  cases hturn with
  | @start marked s rest found =>
    obtain ⟨new, hpushed, -, hmarked⟩ := Search.pushed_push ⟨marked, []⟩ s
    have hmem : s ∈ starters := h.subset List.mem_cons_self
    refine ⟨h.toSearched.push hmem, List.subset_of_cons_subset h.subset, fun r hr ↦ ?_⟩
    rcases h.begun r hr with hr | hr
    · rcases List.mem_cons.mp hr with rfl | hr
      · exact .inr (hmarked (h.size_eq ▸ hs r hmem))
      · exact .inl hr
    · exact .inr ((hpushed.marked_iff r).mpr (.inl hr))
  | @expand marked s rest stack found =>
    obtain ⟨new, hpushed, -⟩ := Search.pushed_pushFree ⟨marked, stack⟩ (nfa.transitionsFrom s)
    exact ⟨h.toSearched.expand ht, h.subset, fun r hr ↦
      (h.begun r hr).imp_right fun hr ↦ (hpushed.marked_iff r).mpr (.inl hr)⟩

theorem Turns.sound (ht : nfa.TargetsExist) (hs : ∀ s ∈ starters, s < nfa.size)
    (hturns : nfa.Turns n w w') (h : w.Sound nfa starters) : w'.Sound nfa starters := by
  induction hturns with
  | refl => exact h
  | head hturn _ ih => exact ih (hturn.sound ht hs h)

theorem sound_first (nfa : Nfa α) (starters : List Nat) :
    (Progress.first nfa starters).Sound nfa starters :=
  ⟨.init nfa starters, List.Subset.refl _, fun _ hs ↦ .inl hs⟩

/-! ## The end -/

/-- A closure holds existing states only, wherever the transitions lead. -/
theorem lt_size_of_mem_closure (hs : s ∈ nfa.closure starters) : s < nfa.size := by
  obtain ⟨n, marked, hturns⟩ := exists_turns_closure nfa starters
  obtain ⟨h, hsize⟩ := hturns.accounts (Searched.init nfa starters).toAccounts
  obtain ⟨hlt, -⟩ := Array.getElem?_eq_some_iff.mp
    ((h.marked_iff s).mpr (.inl (List.mem_reverse.mpr hs)))
  rwa [hsize, Progress.first, Array.size_replicate] at hlt

/-- No state is listed twice in a closure. -/
theorem nodup_closure (nfa : Nfa α) (starters : List Nat) : (nfa.closure starters).Nodup := by
  obtain ⟨n, marked, hturns⟩ := exists_turns_closure nfa starters
  have hnodup := (hturns.accounts (Searched.init nfa starters).toAccounts).1.nodup
  rw [List.append_nil] at hnodup
  exact List.nodup_reverse.mp hnodup

/-- The closure holds exactly the states that free transitions lead to from a starting state. -/
theorem mem_closure_iff (ht : nfa.TargetsExist) (hs : ∀ s ∈ starters, s < nfa.size) :
    t ∈ nfa.closure starters ↔ ∃ s ∈ starters, nfa.Path s [] t := by
  obtain ⟨n, marked, hturns⟩ := exists_turns_closure nfa starters
  have h := hturns.sound ht hs (sound_first nfa starters)
  have hfound : ∀ s : Nat, marked[s]? = some true ↔ s ∈ nfa.closure starters := by
    intro s
    rw [h.marked_iff, List.mem_reverse, or_iff_left List.not_mem_nil]
  rw [← hfound]
  constructor
  · exact h.reached t
  · -- along a path of free transitions every state is marked, as the one before was found
    rintro ⟨s, hss, hpath⟩
    have hstart := (h.begun s hss).resolve_left List.not_mem_nil
    clear hss
    generalize hw : [] = w at hpath
    induction hpath with
    | refl => exact hstart
    | free ht _ ih => exact ih (h.closed _ (List.mem_reverse.mpr ((hfound _).mp hstart)) _ ht) hw
    | char => cases hw

/-- The search makes at most one turn for each starting state and one for each state there is, so
it comes to an end, also if free transitions lead in circles.  It has then found exactly the states
that free transitions lead to from a starting state, each of them once. -/
theorem closure_exact (ht : nfa.TargetsExist) (hs : ∀ s ∈ starters, s < nfa.size) :
    (∀ n w, nfa.Turns n (.first nfa starters) w → n ≤ starters.length + nfa.size) ∧
      (∃ n w, nfa.Turns n (.first nfa starters) w ∧ (∀ w', ¬nfa.Turn w w') ∧
        nfa.closure starters = w.found.reverse) ∧
      (nfa.closure starters).Nodup ∧
      ∀ t, t ∈ nfa.closure starters ↔ ∃ s ∈ starters, nfa.Path s [] t := by
  refine ⟨fun n w hturns ↦ hturns.le_of_first, ?_, nodup_closure nfa starters,
    fun t ↦ mem_closure_iff ht hs⟩
  obtain ⟨n, marked, hturns⟩ := exists_turns_closure nfa starters
  exact ⟨n, _, hturns, nofun, (List.reverse_reverse _).symm⟩

/-- Free transitions in a circle and from a state to itself, and starting states given twice or
reached from one another; a character leads out of the circle. -/
theorem closure_exact_in_circles :
    let nfa : Nfa Nat := ⟨0, #[⟨[⟨none, 0⟩, ⟨none, 1⟩], none⟩, ⟨[⟨none, 2⟩, ⟨none, 0⟩], none⟩,
      ⟨[⟨none, 1⟩, ⟨some (.singleton 'a'), 3⟩], none⟩, ⟨[⟨none, 0⟩], some 0⟩]⟩
    nfa.TargetsExist ∧ (∀ s ∈ [2, 2, 0], s < nfa.size) ∧ (nfa.closure [2, 2, 0]).Nodup ∧
      0 ∈ nfa.closure [2, 2, 0] ∧ ¬∃ s ∈ [2, 2, 0], nfa.Path s [] 3 := by
  intro nfa
  have hr : nfa.InRange := by decide
  have hs : ∀ s ∈ [2, 2, 0], s < nfa.size := by decide
  obtain ⟨-, -, hnodup, hmem⟩ := closure_exact hr.targetsExist hs
  have hclosure : nfa.closure [2, 2, 0] = [2, 1, 0] := by decide +kernel
  refine ⟨hr.targetsExist, hs, hnodup, ?_, ?_⟩
  · exact (hmem 0).mpr ⟨0, by decide, .refl 0⟩
  · rw [← hmem, hclosure]
    decide

end

end RegexScan.Nfa

import Mathlib.Data.Set.Basic
import RegexScan.Nfa.Basic

/-!
# Paths of a nondeterministic automaton

A path reads a text: free transitions read nothing, every other transition one character of its
set.  What an automaton accepts is stated over paths, without any search or closure.
-/

namespace RegexScan.Nfa

variable {α : Type}

/-- `nfa.Path s w t` holds when the state `t` can be reached from `s` by reading `w`. -/
inductive Path (nfa : Nfa α) : Nat → List Char → Nat → Prop
  | refl (s : Nat) : Path nfa s [] s
  | free {s t u : Nat} {w : List Char} :
      ⟨none, t⟩ ∈ nfa.transitionsFrom s → Path nfa t w u → Path nfa s w u
  | char {s t u : Nat} {k : CharSet} {c : Char} {w : List Char} :
      ⟨some k, t⟩ ∈ nfa.transitionsFrom s → c ∈ k → Path nfa t w u → Path nfa s (c :: w) u

/-- Every state that is mentioned exists. -/
structure InRange (nfa : Nfa α) : Prop where
  start_lt : nfa.start < nfa.size
  target_lt : ∀ {s : Nat} {t : Transition}, t ∈ nfa.transitionsFrom s → t.target < nfa.size

/-- The states that can be reached from the start by reading a text. -/
def reached (nfa : Nfa α) (w : List Char) : Set Nat := {t | nfa.Path nfa.start w t}

/-- The values of the states that can be reached from the start by reading a text. -/
def accepted (nfa : Nfa α) (w : List Char) : Set α :=
  {a | ∃ t, nfa.Path nfa.start w t ∧ nfa.accepting? t = some a}

variable {nfa nfa' : Nfa α} {s t u : Nat} {v w : List Char}

namespace Path

theorem single {k : CharSet} {c : Char} (h : ⟨some k, t⟩ ∈ nfa.transitionsFrom s) (hc : c ∈ k) :
    nfa.Path s [c] t :=
  .char h hc (.refl t)

/-- Paths compose, and so do their words. -/
theorem trans (h : nfa.Path s v t) (h' : nfa.Path t w u) : nfa.Path s (v ++ w) u := by
  induction h with
  | refl => exact h'
  | free hs _ ih => exact .free hs (ih h')
  | char hs hc _ ih => exact .char hs hc (ih h')

/-- A path to read a character passes free transitions first. -/
theorem exists_of_cons {c : Char} (h : nfa.Path s (c :: w) u) :
    ∃ r k t, nfa.Path s [] r ∧ ⟨some k, t⟩ ∈ nfa.transitionsFrom r ∧ c ∈ k ∧ nfa.Path t w u := by
  generalize hw : c :: w = cw at h
  induction h with
  | refl => cases hw
  | free hs _ ih =>
    obtain ⟨r, k, t, hr, h⟩ := ih hw
    exact ⟨r, k, t, .free hs hr, h⟩
  | char hs hc h _ =>
    cases hw
    exact ⟨_, _, _, .refl _, hs, hc, h⟩

/-- A path along two words meets a state between them. -/
theorem exists_of_append (h : nfa.Path s (v ++ w) u) : ∃ t, nfa.Path s v t ∧ nfa.Path t w u := by
  induction v generalizing s with
  | nil => exact ⟨s, .refl s, h⟩
  | cons c v ih =>
    obtain ⟨r, k, s', hr, hs', hc, hrest⟩ := h.exists_of_cons
    obtain ⟨t, ht, hu⟩ := ih hrest
    exact ⟨t, hr.trans (.char hs' hc ht), hu⟩

/-- A path from an existing state ends in an existing state. -/
theorem lt_size (h : nfa.Path s w t) (hr : nfa.InRange) (hs : s < nfa.size) : t < nfa.size := by
  induction h with
  | refl => exact hs
  | free ht _ ih => exact ih (hr.target_lt ht)
  | char ht _ _ ih => exact ih (hr.target_lt ht)

/-- Paths only depend on the transitions there are. -/
theorem mono (hle : ∀ s, nfa.transitionsFrom s ⊆ nfa'.transitionsFrom s) (h : nfa.Path s w t) :
    nfa'.Path s w t := by
  induction h with
  | refl => exact .refl _
  | free hs _ ih => exact .free (hle _ hs) ih
  | char hs hc _ ih => exact .char (hle _ hs) hc ih

end Path

/-- What two words reach is reached by the second from what the first reaches. -/
theorem mem_reached_append : u ∈ nfa.reached (v ++ w) ↔ ∃ t ∈ nfa.reached v, nfa.Path t w u := by
  constructor
  · exact Path.exists_of_append
  · rintro ⟨t, ht, hu⟩
    exact ht.trans hu

/-! ## What each step of building an automaton changes -/

/-- No transition leaves a state that does not exist. -/
theorem transitionsFrom_of_size_le (h : nfa.size ≤ s) : nfa.transitionsFrom s = [] := by
  rw [transitionsFrom, Array.getElem?_eq_none h]

theorem accepting?_of_size_le (h : nfa.size ≤ s) : nfa.accepting? s = none := by
  rw [accepting?, Array.getElem?_eq_none h]

/-- Only existing states accept. -/
theorem lt_size_of_accepting? {a : α} (h : nfa.accepting? s = some a) : s < nfa.size := by
  by_contra hs
  rw [accepting?_of_size_le (Nat.le_of_not_lt hs)] at h
  cases h

theorem transitionsFrom_congr (h : nfa'.states[s]? = nfa.states[s]?) :
    nfa'.transitionsFrom s = nfa.transitionsFrom s := by
  rw [transitionsFrom, h, transitionsFrom]

theorem accepting?_congr (h : nfa'.states[s]? = nfa.states[s]?) :
    nfa'.accepting? s = nfa.accepting? s := by
  rw [accepting?, h, accepting?]

/-- An automaton without dangling indices, by its size and its transitions. -/
theorem inRange_iff : nfa.InRange ↔
    nfa.start < nfa.size ∧ ∀ s < nfa.size, ∀ t ∈ nfa.transitionsFrom s, t.target < nfa.size := by
  refine ⟨fun h ↦ ⟨h.start_lt, fun _ _ _ ht ↦ h.target_lt ht⟩, fun ⟨hstart, h⟩ ↦ ⟨hstart, ?_⟩⟩
  intro s t ht
  by_cases hs : s < nfa.size
  · exact h s hs t ht
  · rw [transitionsFrom_of_size_le (Nat.le_of_not_lt hs)] at ht
    exact absurd ht List.not_mem_nil

instance : Decidable nfa.InRange := decidable_of_iff' _ inRange_iff

/-- Only the index of the new state is looked up differently. -/
theorem getElem?_addState (nfa : Nfa α) (s : Nat) :
    nfa.addState.states[s]? = if s = nfa.size then some ⟨[], none⟩ else nfa.states[s]? := by
  rw [addState, Array.getElem?_push]
  rfl

theorem getElem?_addState_of_lt (h : s < nfa.size) :
    nfa.addState.states[s]? = nfa.states[s]? := by
  rw [getElem?_addState, if_neg (Nat.ne_of_lt h)]

/-- A new state adds no transition. -/
@[simp] theorem transitionsFrom_addState (nfa : Nfa α) (s : Nat) :
    nfa.addState.transitionsFrom s = nfa.transitionsFrom s := by
  rw [transitionsFrom, getElem?_addState]
  split_ifs with h
  · rw [transitionsFrom_of_size_le (Nat.le_of_eq h.symm)]
  · rw [transitionsFrom]

@[simp] theorem accepting?_addState (nfa : Nfa α) (s : Nat) :
    nfa.addState.accepting? s = nfa.accepting? s := by
  rw [accepting?, getElem?_addState]
  split_ifs with h
  · rw [accepting?_of_size_le (Nat.le_of_eq h.symm)]
  · rw [accepting?]

theorem getElem?_addTransition_of_ne {r : Nat} (e : Transition) (h : s ≠ r) :
    (nfa.addTransition r e).states[s]? = nfa.states[s]? := by
  rw [addTransition, Array.getElem?_modify, if_neg h.symm]

/-- A transition changes nothing about acceptance. -/
@[simp] theorem accepting?_addTransition (nfa : Nfa α) (r : Nat) (e : Transition) (s : Nat) :
    (nfa.addTransition r e).accepting? s = nfa.accepting? s := by
  by_cases h : r = s
  · subst h
    rw [accepting?, accepting?, addTransition, Array.getElem?_modify, if_pos rfl]
    cases nfa.states[r]? <;> rfl
  · exact accepting?_congr (getElem?_addTransition_of_ne e (Ne.symm h))

/-- A transition is added behind those that its state has. -/
theorem transitionsFrom_addTransition_self {r : Nat} (h : r < nfa.size) (e : Transition) :
    (nfa.addTransition r e).transitionsFrom r = nfa.transitionsFrom r ++ [e] := by
  rw [transitionsFrom, transitionsFrom, addTransition, Array.getElem?_modify, if_pos rfl,
    Array.getElem?_eq_getElem h]
  rfl

/-- The transitions after one was added are the old ones and the new one. -/
theorem mem_transitionsFrom_addTransition {r : Nat} {e f : Transition} (hr : r < nfa.size) :
    f ∈ (nfa.addTransition r e).transitionsFrom s ↔
      f ∈ nfa.transitionsFrom s ∨ s = r ∧ f = e := by
  by_cases h : s = r
  · subst h
    simp [transitionsFrom_addTransition_self hr]
  · rw [transitionsFrom_congr (getElem?_addTransition_of_ne e h)]
    simp [h]

theorem transitionsFrom_subset_addTransition (nfa : Nfa α) (r : Nat) (e : Transition) (s : Nat) :
    nfa.transitionsFrom s ⊆ (nfa.addTransition r e).transitionsFrom s := by
  intro f hf
  by_cases hr : r < nfa.size
  · exact (mem_transitionsFrom_addTransition hr).mpr (.inl hf)
  · have hs : s ≠ r := by
      rintro rfl
      rw [transitionsFrom_of_size_le (Nat.le_of_not_lt hr)] at hf
      exact absurd hf (List.not_mem_nil)
    rwa [transitionsFrom_congr (getElem?_addTransition_of_ne e hs)]

theorem getElem?_setAccepting_of_ne {r : Nat} (a : α) (h : s ≠ r) :
    (nfa.setAccepting r a).states[s]? = nfa.states[s]? := by
  rw [setAccepting, Array.getElem?_modify, if_neg h.symm]

@[simp] theorem transitionsFrom_setAccepting (nfa : Nfa α) (r : Nat) (a : α) (s : Nat) :
    (nfa.setAccepting r a).transitionsFrom s = nfa.transitionsFrom s := by
  by_cases h : r = s
  · subst h
    rw [transitionsFrom, transitionsFrom, setAccepting, Array.getElem?_modify, if_pos rfl]
    cases nfa.states[r]? <;> rfl
  · exact transitionsFrom_congr (getElem?_setAccepting_of_ne a (Ne.symm h))

/-- The state that is made to accept does. -/
theorem accepting?_setAccepting_self {r : Nat} (h : r < nfa.size) (a : α) :
    (nfa.setAccepting r a).accepting? r = some a := by
  rw [accepting?, setAccepting, Array.getElem?_modify, if_pos rfl, Array.getElem?_eq_getElem h]
  rfl

end RegexScan.Nfa

import Mathlib.Algebra.Group.Nat.Defs
import Mathlib.Logic.Relation
import RegexScan.Dfa.Determinize

/-!
# The search for closures, turn by turn

One turn gives a state to the first closure that has none, and finds the closures that its pieces
lead to.  What a turn preserves holds wherever the search can come to.  The fuel only stops it
early, so a search with no more closures than fuel has worked all of them off.
-/

namespace RegexScan

section

variable {ε α β : Type} {x : Except ε α} {b : β}

/-- A bind succeeds if both computations do. -/
theorem bind_eq_ok_iff {f : α → Except ε β} : x >>= f = .ok b ↔ ∃ a, x = .ok a ∧ f a = .ok b := by
  cases x with
  | error e =>
    refine ⟨nofun, ?_⟩
    rintro ⟨a, h, -⟩
    cases h
  | ok a =>
    refine ⟨fun h ↦ ⟨a, rfl, h⟩, ?_⟩
    rintro ⟨a', h, hb⟩
    cases h
    exact hb

/-- A map succeeds if what is mapped does. -/
theorem map_eq_ok_iff {f : α → β} : x.map f = .ok b ↔ ∃ a, x = .ok a ∧ f a = b := by
  cases x with
  | error e =>
    refine ⟨nofun, ?_⟩
    rintro ⟨a, h, -⟩
    cases h
  | ok a => simp [Except.map]

end

namespace Dfa

variable {α : Type}

/-- What is inserted comes last, whatever the limit is. -/
theorem eq_push_of_insert {found found' : Found α} {k : Nfa.Closure α} {i : Nat}
    (h : insert limit found k = .ok (found', i)) : found' = found.push k ∧ i = found.size := by
  cases limit with
  | none =>
    cases h
    exact ⟨rfl, rfl⟩
  | some n =>
    rw [insert] at h
    split at h
    · cases h
    · cases h
      exact ⟨rfl, rfl⟩

/-- How far a search has come: the closures found, and the states of the first of them. -/
structure Progress (α : Type) where
  found : Found α
  states : Array (State α)

variable [Min α] {nfa : Nfa α} {limit : Option Nat} {dfa : Dfa α}

/-- The first transition leads to where the closure of its piece is located, and the others are made
from there. -/
theorem connect_cons_eq_ok_iff {found found' : Found α} {p : Piece Nat} {ps : List (Piece Nat)}
    {ts : List Transition} :
    connect nfa limit found (p :: ps) = .ok (found', ts) ↔
      ∃ mid i us, locate limit found (nfa.closureOf p.targets) = .ok (mid, i) ∧
        connect nfa limit mid ps = .ok (found', us) ∧ ts = ⟨p.chars, i⟩ :: us := by
  rw [connect]
  constructor
  · intro h
    obtain ⟨⟨mid, i⟩, hlocate, h⟩ := bind_eq_ok_iff.mp h
    obtain ⟨⟨all, us⟩, hrest, h⟩ := bind_eq_ok_iff.mp h
    cases h
    exact ⟨mid, i, us, hlocate, hrest, rfl⟩
  · rintro ⟨mid, i, us, hlocate, hrest, rfl⟩
    exact bind_eq_ok_iff.mpr ⟨_, hlocate, bind_eq_ok_iff.mpr ⟨_, hrest, rfl⟩⟩

/-- One turn of the search: the first closure without a state gets one. -/
inductive Turn (nfa : Nfa α) (limit : Option Nat) : Progress α → Progress α → Prop
  | finish {found found' : Found α} {states : Array (State α)} {k : Nfa.Closure α}
      {ts : List Transition} :
      found[states.size]? = some k →
        connect nfa limit found (partition k.labels) = .ok (found', ts) →
          Turn nfa limit ⟨found, states⟩ ⟨found', states.push ⟨ts, k.accepting⟩⟩

/-- A search begins with the closure of the start. -/
def Progress.first (nfa : Nfa α) : Progress α := ⟨#[nfa.closureOf [nfa.start]], #[]⟩

/-- What the search comes to by some turns. -/
def Underway (nfa : Nfa α) (limit : Option Nat) : Progress α → Prop :=
  Relation.ReflTransGen (Turn nfa limit) (.first nfa)

/-- The search stops when every closure has its state, or else after as many turns as there is
fuel. -/
theorem exists_turns_of_explore {fuel : Nat} {found : Found α} {states done : Array (State α)}
    (h : explore nfa limit fuel found states = .ok done) :
    ∃ all, Relation.ReflTransGen (Turn nfa limit) ⟨found, states⟩ ⟨all, done⟩ ∧
      (all.size ≤ done.size ∨ done.size = states.size + fuel) := by
  induction fuel generalizing found states with
  | zero =>
    cases h
    exact ⟨found, .refl, .inr rfl⟩
  | succ fuel ih =>
    rw [explore] at h
    split at h
    · next hnone =>
      cases h
      exact ⟨found, .refl, .inl (Array.getElem?_eq_none_iff.mp hnone)⟩
    · next k hk =>
      obtain ⟨⟨found', ts⟩, hconnect, h⟩ := bind_eq_ok_iff.mp h
      obtain ⟨all, hturns, hstop⟩ := ih h
      refine ⟨all, .head (.finish hk hconnect) hturns, hstop.imp_right fun hsize ↦ ?_⟩
      rw [hsize, Array.size_push]
      omega

/-- The closure of the start is inserted first, and the search goes on from there. -/
theorem start_eq_and_explore_eq (h : determinize nfa limit = .ok dfa) :
    dfa.start = 0 ∧
      explore nfa limit (2 ^ nfa.size) #[nfa.closureOf [nfa.start]] #[] = .ok dfa.states := by
  obtain ⟨⟨found, i⟩, hinsert, h⟩ := bind_eq_ok_iff.mp h
  obtain ⟨rfl, rfl⟩ := eq_push_of_insert hinsert
  dsimp only at h
  obtain ⟨states, hexplore, h⟩ := bind_eq_ok_iff.mp h
  cases h
  exact ⟨rfl, hexplore⟩

/-- The closure of the start is the first to be inserted, so its number is 0. -/
theorem start_eq_zero (h : determinize nfa limit = .ok dfa) : dfa.start = 0 :=
  (start_eq_and_explore_eq h).1

/-- Where the search ends, every closure has its state, unless there are more closures than sets of
states. -/
theorem exists_underway (h : determinize nfa limit = .ok dfa) :
    ∃ found, Underway nfa limit ⟨found, dfa.states⟩ ∧
      (found.size ≤ 2 ^ nfa.size → found.size ≤ dfa.size) := by
  obtain ⟨-, hexplore⟩ := start_eq_and_explore_eq h
  obtain ⟨all, hturns, hstop⟩ := exists_turns_of_explore hexplore
  refine ⟨all, hturns, fun hle ↦ hstop.elim id fun hsize ↦ ?_⟩
  rw [size, hsize, Array.size_empty, Nat.zero_add]
  exact hle

end Dfa

end RegexScan

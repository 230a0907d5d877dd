import RegexScan.Nfa.Basic

/-!
# Free closures

The states that a set of states reaches through free transitions, found depth first.  A state is
marked when it is put on the stack, so it is put there once, and each step either marks a state or
takes one off the stack.
-/

namespace RegexScan.Nfa

variable {α : Type}

/-- A search under way: which states are marked, and those of them still to be expanded. -/
structure Search where
  marked : Array Bool
  stack : List Nat

namespace Search

/-- How many states are not marked yet. -/
def unmarked (w : Search) : Nat := w.marked.count false

/-- Mark a state and put it on the stack, unless it is marked already.  A state that does not exist
is left out; to look it up would be an error. -/
def push (w : Search) (s : Nat) : Search :=
  match w.marked[s]? with
  | some false => ⟨w.marked.setIfInBounds s true, s :: w.stack⟩
  | _ => w

/-- Push the targets of free transitions so that the first comes to lie on top. -/
def pushFree (w : Search) (ts : List Transition) : Search :=
  ts.foldr (fun t w ↦ if t.isFree then w.push t.target else w) w

/-- Marking an unmarked state leaves one less of them. -/
theorem unmarked_setIfInBounds {marked : Array Bool} {s : Nat} (stack stack' : List Nat)
    (h : marked[s]? = some false) :
    unmarked ⟨marked.setIfInBounds s true, stack⟩ + 1 = unmarked ⟨marked, stack'⟩ := by
  obtain ⟨hs, hget⟩ := Array.getElem?_eq_some_iff.mp h
  have hpos : 0 < marked.count false := Array.count_pos_iff.mpr (hget ▸ Array.getElem_mem hs)
  rw [unmarked, unmarked, Array.setIfInBounds, dif_pos hs, Array.count_set, hget]
  exact Nat.sub_add_cancel hpos

/-- A state that comes onto the stack is no longer unmarked. -/
theorem push_measure (w : Search) (s : Nat) :
    (w.push s).unmarked + (w.push s).stack.length = w.unmarked + w.stack.length := by
  unfold push
  split
  · next hs =>
    rw [← unmarked_setIfInBounds (s :: w.stack) w.stack hs, List.length_cons]
    exact (Nat.succ_add_eq_add_succ ..).symm
  · rfl

/-- So the states that are yet to be expanded are as many as before. -/
theorem pushFree_measure (w : Search) (ts : List Transition) :
    (w.pushFree ts).unmarked + (w.pushFree ts).stack.length = w.unmarked + w.stack.length := by
  induction ts with
  | nil => rfl
  | cons t ts ih =>
    simp only [pushFree, List.foldr_cons] at ih ⊢
    split
    · rw [push_measure, ih]
    · exact ih

end Search

/-- Expand states until the stack is empty.  The states expanded are put before `found`. -/
def drain (nfa : Nfa α) (w : Search) (found : List Nat) : Array Bool × List Nat :=
  match w with
  | ⟨marked, []⟩ => (marked, found)
  | ⟨marked, s :: stack⟩ =>
    nfa.drain (Search.pushFree ⟨marked, stack⟩ (nfa.transitionsFrom s)) (s :: found)
termination_by w.unmarked + w.stack.length
decreasing_by
  rw [Search.pushFree_measure]
  exact Nat.lt_succ_self _

/-- Every state that the given ones reach through free transitions, each once, in the order in
which a search depth first finds it. -/
def closure (nfa : Nfa α) (starters : List Nat) : List Nat :=
  let search := fun (marked, found) s ↦ nfa.drain (Search.push ⟨marked, []⟩ s) found
  (starters.foldl search (Array.replicate nfa.size false, [])).2.reverse

end RegexScan.Nfa

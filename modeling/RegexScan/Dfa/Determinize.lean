import RegexScan.Dfa.Basic
import RegexScan.Dfa.Partition
import RegexScan.Nfa.Closure

/-!
# Determinization

A state of the deterministic automaton stands for a set of states of the other one, closed under
free transitions.  Only the sets that transitions lead to are built, in the order in which a search
breadth first from the start finds them.  Sets are told apart by their names.
-/

namespace RegexScan

namespace Nfa

/-- Names a set of states: its members in ascending order, separated by dots. -/
def setId (states : List Nat) : List Char :=
  ['.'].intercalate ((Ascending.ofList states).map fun s ↦ (Nat.repr s).toList)

/-- The text of a set does not depend on the order or the repetitions of the list. -/
theorem setId_ofList (states : List Nat) : setId (Ascending.ofList states) = setId states := by
  rw [setId, Ascending.ofList_of_pairwise (Ascending.pairwise_ofList states), setId]

/-- A closed set of states seen as one state, with its name.  The labels stand in the order in which
the states were found. -/
structure Closure (α : Type) where
  id : List Char
  members : List Nat
  labels : List (Label Nat)
  accepting : Option α
  ascending : members.Pairwise (· < ·)
  id_eq : id = setId members

/-- A transition as a label, unless it is free or its set is empty. -/
def Transition.label? (t : Transition) : Option (Label Nat) :=
  match t.on with
  | some s => if s.isEmpty then none else some ⟨s, t.target⟩
  | none => none

variable {α : Type}

/-- The closure of states.  Of several accepted values the smallest counts. -/
def closureOf [Min α] (nfa : Nfa α) (starters : List Nat) : Closure α :=
  let states := nfa.closure starters
  { id := setId states
    members := Ascending.ofList states
    labels := states.flatMap fun s ↦ (nfa.transitionsFrom s).filterMap (·.label?)
    accepting := (states.filterMap nfa.accepting?).min?
    ascending := Ascending.pairwise_ofList states
    id_eq := (setId_ofList states).symm }

end Nfa

/-- The deterministic automaton would have more states than allowed. -/
structure TooManyStates where
  limit : Nat
deriving DecidableEq, Repr

/-- The error names the limit and not the number of states that it would take. -/
def TooManyStates.message (e : TooManyStates) : String :=
  "the deterministic automaton needs more than " ++ toString e.limit ++ " states"

namespace Dfa

variable {α : Type}

/-- The closures found so far, each at the index of its state. -/
abbrev Found (α : Type) := Array (Nfa.Closure α)

/-- Add a closure as a new state, which comes last, if the limit allows one more. -/
def insert (limit : Option Nat) (found : Found α) (k : Nfa.Closure α) :
    Except TooManyStates (Found α × Nat) :=
  match limit with
  | some n => if n ≤ found.size then .error ⟨n⟩ else .ok (found.push k, found.size)
  | none => .ok (found.push k, found.size)

/-- The state of a closure, which is a new one if no closure with the same name was found. -/
def locate (limit : Option Nat) (found : Found α) (k : Nfa.Closure α) :
    Except TooManyStates (Found α × Nat) :=
  match found.findIdx? (·.id == k.id) with
  | some i => .ok (found, i)
  | none => insert limit found k

/-- The transitions for pieces. -/
def connect [Min α] (nfa : Nfa α) (limit : Option Nat) (found : Found α) :
    List (Piece Nat) → Except TooManyStates (Found α × List Transition)
  | [] => .ok (found, [])
  | p :: ps => do
    let (found, i) ← locate limit found (nfa.closureOf p.targets)
    let (found, ts) ← connect nfa limit found ps
    return (found, ⟨p.chars, i⟩ :: ts)

/-- Finish the states one after the other, as long as there are closures without a finished state
and fuel is left. -/
def explore [Min α] (nfa : Nfa α) (limit : Option Nat) :
    Nat → Found α → Array (State α) → Except TooManyStates (Array (State α))
  | 0, _, states => .ok states
  | fuel + 1, found, states =>
    match found[states.size]? with
    | none => .ok states
    | some k => do
      let (found, ts) ← connect nfa limit found (partition k.labels)
      explore nfa limit fuel found (states.push ⟨ts, k.accepting⟩)

/-- The deterministic automaton that accepts the same, with as many states as there are sets of
states that transitions can lead to.  There are fewer of those than sets of states, which bounds the
search.  The start is where the closure of the other start is inserted. -/
def determinize [Min α] (nfa : Nfa α) (limit : Option Nat) : Except TooManyStates (Dfa α) := do
  let (found, start) ← insert limit #[] (nfa.closureOf [nfa.start])
  let states ← explore nfa limit (Nat.pow 2 nfa.size) found #[]
  return ⟨start, states⟩

end Dfa

end RegexScan

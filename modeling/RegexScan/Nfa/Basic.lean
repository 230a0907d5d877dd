import RegexScan.CharSet.Basic

/-!
# Nondeterministic automata

States are numbered from zero in the order they are added.  A transition without a set is free: it
consumes nothing.
-/

namespace RegexScan

namespace Nfa

/-- A step to a state, for a character of a set or for nothing. -/
structure Transition where
  on : Option CharSet
  target : Nat
deriving DecidableEq

/-- Whether a transition consumes nothing. -/
def Transition.isFree : Transition → Bool
  | ⟨none, _⟩ => true
  | ⟨some _, _⟩ => false

/-- The transitions stand in the order they were added. -/
structure State (α : Type) where
  transitions : List Transition
  accepting : Option α
deriving DecidableEq

end Nfa

/-- A nondeterministic automaton: the number of its start and its states by their numbers. -/
structure Nfa (α : Type) where
  start : Nat
  states : Array (Nfa.State α)
deriving DecidableEq

namespace Nfa

variable {α : Type}

/-- An automaton with a start state and nothing else. -/
def initial : Nfa α := ⟨0, #[⟨[], none⟩]⟩

/-- The number of states. -/
def size (nfa : Nfa α) : Nat := nfa.states.size

/-- The transitions of a state.  There are none from a state that does not exist; to look it up
would be an error. -/
def transitionsFrom (nfa : Nfa α) (s : Nat) : List Transition :=
  match nfa.states[s]? with
  | some state => state.transitions
  | none => []

/-- The value of a state, if it is accepting.  Nor has a state that does not exist a value. -/
def accepting? (nfa : Nfa α) (s : Nat) : Option α :=
  match nfa.states[s]? with
  | some state => state.accepting
  | none => none

/-- Add a state, whose index is the size before. -/
def addState (nfa : Nfa α) : Nfa α := { nfa with states := nfa.states.push ⟨[], none⟩ }

/-- Add a transition behind those that a state has. -/
def addTransition (nfa : Nfa α) (source : Nat) (t : Transition) : Nfa α :=
  { nfa with states := nfa.states.modify source fun s ↦
      { s with transitions := s.transitions ++ [t] } }

/-- Add a transition that consumes nothing. -/
def addFree (nfa : Nfa α) (source target : Nat) : Nfa α := nfa.addTransition source ⟨none, target⟩

/-- Make a state accept a value, in place of the one it accepts. -/
def setAccepting (nfa : Nfa α) (s : Nat) (value : α) : Nfa α :=
  { nfa with states := nfa.states.modify s fun state ↦ { state with accepting := some value } }

/-- A new state is one state more. -/
@[simp] theorem size_addState (nfa : Nfa α) : nfa.addState.size = nfa.size + 1 :=
  Array.size_push _

/-- A transition adds no state. -/
@[simp] theorem size_addTransition (nfa : Nfa α) (s : Nat) (t : Transition) :
    (nfa.addTransition s t).size = nfa.size :=
  Array.size_modify

@[simp] theorem size_addFree (nfa : Nfa α) (s t : Nat) : (nfa.addFree s t).size = nfa.size :=
  size_addTransition ..

@[simp] theorem size_setAccepting (nfa : Nfa α) (s : Nat) (a : α) :
    (nfa.setAccepting s a).size = nfa.size :=
  Array.size_modify

end Nfa

end RegexScan

import RegexScan.CharSet.Basic

/-!
# Deterministic automata

States are numbered from zero, and one of them is the start.
-/

namespace RegexScan

namespace Dfa

/-- A step to a state, for a character of a set. -/
structure Transition where
  on : CharSet
  target : Nat
deriving DecidableEq

/-- The transitions stand in the order in which they are tried. -/
structure State (α : Type) where
  transitions : List Transition
  accepting : Option α
deriving DecidableEq

end Dfa

/-- A deterministic automaton: the number of its start and its states by their numbers. -/
structure Dfa (α : Type) where
  start : Nat
  states : Array (Dfa.State α)
deriving DecidableEq

namespace Dfa

variable {α : Type}

/-- The number of states. -/
def size (dfa : Dfa α) : Nat := dfa.states.size

/-- The transitions of a state.  There are none from a state that does not exist; to look it up
would be an error. -/
def transitionsFrom (dfa : Dfa α) (s : Nat) : List Transition :=
  match dfa.states[s]? with
  | some state => state.transitions
  | none => []

/-- The value of a state, if it is accepting.  Nor has a state that does not exist a value. -/
def accepting? (dfa : Dfa α) (s : Nat) : Option α :=
  match dfa.states[s]? with
  | some state => state.accepting
  | none => none

/-- The state after a character: the first transition whose set holds it decides. -/
def step (dfa : Dfa α) (s : Nat) (c : Char) : Option Nat :=
  ((dfa.transitionsFrom s).find? (·.on.contains c)).map (·.target)

/-- The state after a text. -/
def steps (dfa : Dfa α) (s : Nat) : List Char → Option Nat
  | [] => some s
  | c :: cs =>
    match dfa.step s c with
    | some next => dfa.steps next cs
    | none => none

/-! ## Listings -/

/-- How a state is named in a listing. -/
def indexText (i : Nat) : List Char := 'S' :: (Nat.repr i).toList

/-- A transition in a listing. -/
def Transition.text (t : Transition) : List Char :=
  '\x7b' :: t.on.text ++ " -> ".toList ++ indexText t.target ++ ['\x7d']

/-- One line for a state: the transitions, then the accepted value. -/
def stateText [ToString α] (i : Nat) (s : State α) : List Char :=
  let transitions :=
    if s.transitions.isEmpty then []
    else "t: [".toList ++ [' '].intercalate (s.transitions.map (·.text)) ++ [']']
  let accepting := match s.accepting with
    | some a => "act: ".toList ++ (toString a).toList
    | none => []
  let comma := if transitions.isEmpty || accepting.isEmpty then [] else ", ".toList
  indexText i ++ '\x7b' :: transitions ++ comma ++ accepting ++ ['\x7d', '\n']

/-- The listing of an automaton, state by state. -/
def text [ToString α] (dfa : Dfa α) : List Char :=
  (dfa.states.toList.mapIdx stateText).flatten

end Dfa

end RegexScan

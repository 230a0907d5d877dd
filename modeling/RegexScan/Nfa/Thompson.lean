import RegexScan.Nfa.Basic
import RegexScan.Regex.Basic

/-!
# Automata for regular expressions

Each expression becomes a fragment with one entry and one exit, and fragments are tied together by
free transitions.
-/

namespace RegexScan.Nfa

variable {α : Type}

/-- A part of an automaton that is entered at one state and left at another. -/
structure Fragment where
  entry : Nat
  exit : Nat
deriving DecidableEq, Repr

/-- A fragment of two states and a transition between them. -/
def addEdge (nfa : Nfa α) (on : Option CharSet) : Nfa α × Fragment :=
  (nfa.addState.addState.addTransition nfa.size ⟨on, nfa.size + 1⟩, ⟨nfa.size, nfa.size + 1⟩)

mutual

/-- Add a fragment for an expression. -/
def addFragment (nfa : Nfa α) : Regex → Nfa α × Fragment
  | .seq [] => nfa.addEdge none
  | .seq (r :: rs) =>
    let (nfa, f) := nfa.addFragment r
    nfa.extend f rs
  | .alt rs =>
    let f : Fragment := ⟨nfa.size, nfa.size + 1⟩
    (nfa.addState.addState.addBranches f rs, f)
  | .star r =>
    let entry := nfa.size
    let (nfa, f) := nfa.addState.addFragment r
    let bypass := nfa.size
    let exit := bypass + 1
    (nfa.addState.addState
      |>.addFree f.exit f.entry |>.addFree f.exit bypass
      |>.addFree entry f.entry |>.addFree entry bypass
      |>.addFree bypass exit, ⟨entry, exit⟩)
  | .set s => nfa.addEdge (some s)
  | .empty => nfa.addEdge none

/-- Continue a fragment with expressions to be matched one after the other. -/
def extend (nfa : Nfa α) (f : Fragment) : List Regex → Nfa α × Fragment
  | [] => (nfa, f)
  | r :: rs =>
    let (nfa, g) := nfa.addFragment r
    (nfa.addFree f.exit g.entry).extend ⟨f.entry, g.exit⟩ rs

/-- Add ways through a fragment, one for each expression. -/
def addBranches (nfa : Nfa α) (f : Fragment) : List Regex → Nfa α
  | [] => nfa
  | r :: rs =>
    let (nfa, g) := nfa.addFragment r
    ((nfa.addFree f.entry g.entry).addFree g.exit f.exit).addBranches f rs

end

/-- Make the automaton also accept what the expression matches, with the given value. -/
def addRegex (nfa : Nfa α) (r : Regex) (value : α) : Nfa α × Fragment :=
  let (grown, f) := nfa.addFragment r
  ((grown.addFree nfa.start f.entry).setAccepting f.exit value, f)

end RegexScan.Nfa

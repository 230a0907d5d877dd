import RegexScan.Dfa.Basic
import RegexScan.Reader.Basic

/-!
# Scanning

An automaton is tried at every position of the input.  From each position the longest accepted text
is a match, and the search goes on right behind it, or one character further after an empty match
or none.
-/

namespace RegexScan

/-- The text, where it begins, counted in characters, and the index of the pattern it matches. -/
structure Match where
  text : String
  offset : Nat
  pattern : Nat
deriving DecidableEq, Repr

namespace Scan

variable {ε : Type}

/-- What made an attempt stop: no transition for the next character, the end of the input behind so
many characters, or a failure of the source. -/
inductive Halt (ε : Type) where
  | stuck
  | ended (consumed : Nat)
  | failed (e : ε)
deriving DecidableEq

/-- The longest accepted text by length and accepted pattern, and what ended the attempt. -/
structure Attempt (ε : Type) where
  longest : Option (Nat × Nat)
  halt : Halt ε
deriving DecidableEq

/-- Follow the automaton from a state reached by `consumed` characters. -/
def follow (dfa : Dfa Nat) (s consumed : Nat) (longest : Option (Nat × Nat)) :
    List (Poll ε) → Attempt ε
  | [] => ⟨longest, .ended consumed⟩
  | .endOfInput :: _ => ⟨longest, .ended consumed⟩
  | .failure e :: _ => ⟨longest, .failed e⟩
  | .char c :: input =>
    match dfa.step s c with
    | none => ⟨longest, .stuck⟩
    | some next =>
      let longest := match dfa.accepting? next with
        | some pattern => some (consumed + 1, pattern)
        | none => longest
      follow dfa next (consumed + 1) longest input

/-- Try to match at the front of the input. -/
def attempt (dfa : Dfa Nat) (input : List (Poll ε)) : Attempt ε :=
  follow dfa dfa.start 0 ((dfa.accepting? dfa.start).map (0, ·)) input

namespace Attempt

/-- How far the next attempt is from this one. -/
def advance (a : Attempt ε) : Nat :=
  match a.longest with
  | some (length, _) => max length 1
  | none => 1

/-- The match found at an offset. -/
def found? (a : Attempt ε) (offset : Nat) (input : List (Poll ε)) : Option Match :=
  a.longest.map fun (length, pattern) ↦
    ⟨String.ofList ((input.take length).filterMap (·.char?)), offset, pattern⟩

/-- The input of the next attempt.  An end of the input that was met is not met again. -/
def remaining (a : Attempt ε) (input : List (Poll ε)) : List (Poll ε) :=
  match a.halt with
  | .ended consumed => (input.eraseIdx consumed).drop a.advance
  | _ => input.drop a.advance

/-- Behind an empty match the next attempt is one character further all the same. -/
theorem advance_pos (a : Attempt ε) : 0 < a.advance := by
  unfold advance
  split
  · exact Nat.lt_of_lt_of_le Nat.zero_lt_one (Nat.le_max_right ..)
  · exact Nat.zero_lt_one

/-- So the input gets shorter from attempt to attempt. -/
theorem length_remaining_lt (a : Attempt ε) (p : Poll ε) (input : List (Poll ε)) :
    (a.remaining (p :: input)).length < (p :: input).length := by
  have hpos := a.advance_pos
  unfold remaining
  split
  · next consumed _ =>
    have hle := List.length_eraseIdx_le (p :: input) consumed
    rw [List.length_cons] at hle
    rw [List.length_drop, List.length_cons]
    omega
  · rw [List.length_drop, List.length_cons]
    omega

end Attempt

/-- Hand every match to `onMatch`, until that answers true, the input ends or the source fails.  A
match is handed out before the failure that the attempt ran into.  Nothing is tried at the end of
the input. -/
def run {m : Type → Type} [Monad m] (dfa : Dfa Nat) (onMatch : Match → m Bool) (offset : Nat)
    (input : List (Poll ε)) : m (Except ε Unit) :=
  match input with
  | [] => pure (.ok ())
  | .endOfInput :: _ => pure (.ok ())
  | .failure e :: _ => pure (.error e)
  | .char c :: rest => do
    let a := attempt dfa (.char c :: rest)
    let stop ← match a.found? offset (.char c :: rest) with
      | some found => onMatch found
      | none => pure false
    if stop then pure (.ok ())
    else match a.halt with
      | .failed e => pure (.error e)
      | _ => run dfa onMatch (offset + a.advance) (a.remaining (.char c :: rest))
termination_by input.length
decreasing_by exact Attempt.length_remaining_lt ..

end Scan

end RegexScan

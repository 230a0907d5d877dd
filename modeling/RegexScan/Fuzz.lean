import RegexScan.Machine.Basic
import RegexScan.Random.Pattern
import RegexScan.Random.Pcg
import RegexScan.Regex.Ends

/-!
# Checking machines against the trees they come from

Random patterns are built into machines, and on random texts each machine must find what the tree
of its pattern does.
-/

namespace RegexScan.Fuzz

/-- A disagreement on a pattern and a text. -/
structure Mismatch where
  pattern : String
  input : String
  what : String
  expected : String
  got : String
deriving DecidableEq, Repr

def Mismatch.message (e : Mismatch) : String :=
  e.what ++ " mismatch for pattern " ++ Text.quotedString e.pattern ++ " on input " ++
    Text.quotedString e.input ++ "\n  expected: " ++ e.expected ++ "\n  got:      " ++ e.got

/-- Found texts with their offsets, as a mismatch shows them. -/
def foundText (found : List (Nat × String)) : String :=
  let one : Nat × String → String := fun (offset, text) ↦
    "(" ++ toString offset ++ ", " ++ Text.quotedString text ++ ")"
  "[" ++ ", ".intercalate (found.map one) ++ "]"

/-- Compare the machine for a pattern with the tree on a text. -/
def check (pattern input : String) : Except Mismatch Unit := do
  let r ← match Pattern.parse pattern with
    | .ok r => pure r
    | .error e => throw ⟨pattern, input, "parse", "a valid pattern", e.message⟩
  let machine ← match Machine.buildOne (m := Id) pattern (fun _ ↦ false) with
    | .ok machine => pure machine
    | .error e => throw ⟨pattern, input, "build", "a machine", e.message⟩
  let expected := r.fullMatch input
  let got := machine.fullMatch input
  if expected ≠ got then
    throw ⟨pattern, input, "full match", toString expected, toString got⟩
  let expected := r.findAll input
  let got := (machine.findAll input).map fun found ↦ (found.offset, found.text)
  if expected ≠ got then
    throw ⟨pattern, input, "find all", foundText expected, foundText got⟩

/-- The characters of random patterns and texts. -/
def alphabet : List Char := ['a', 'b', 'c']

/-- Roll a pattern, then a text. -/
def roll {σ : Type} (dice : Dice σ) : StateM σ (String × String) := do
  let pattern ← dice.pattern alphabet (by decide) 3
  let input ← dice.string 0 12 (by decide) alphabet (by decide)
  return (String.ofList pattern, String.ofList input)

/-- Check so many cases, up to the first mismatch. -/
def checkCases {σ : Type} (dice : Dice σ) (s : σ) : (cases : Nat) → Except Mismatch Unit
  | 0 => .ok ()
  | cases + 1 =>
    let ((pattern, input), s) := roll dice s
    match check pattern input with
    | .ok () => checkCases dice s cases
    | .error e => .error e

/-- What a run prints and its exit code. -/
structure Report where
  code : Nat
  output : String
deriving DecidableEq, Repr

/-- Check so many cases with the dice of a seed, and report the seed with the result. -/
def run (seed : UInt64) (cases : Nat) : Report :=
  let head := "seed: " ++ toString seed ++ "\n"
  match checkCases Pcg.dice (.seeded seed) cases with
  | .ok () => ⟨0, head ++ toString cases ++ " cases passed\n"⟩
  | .error e => ⟨1, head ++ e.message ++ "\nrerun with seed " ++ toString seed ++ "\n"⟩

def defaultCases : Nat := 10000

end RegexScan.Fuzz

/-!
# Dice

Everything random is made from two rolls: a number below a bound and a percentile.
-/

namespace RegexScan

/-- A source of chance with a state. -/
structure Dice (σ : Type) where
  below : (n : Nat) → 0 < n → StateM σ (Fin n)
  percentile : StateM σ (Fin 100)

namespace Dice

variable {σ : Type} (dice : Dice σ)

/-- A number from `lo` on and below `hi`. -/
def range (lo hi : Nat) (h : lo < hi) : StateM σ Nat := do
  let roll ← dice.below (hi - lo) (by omega)
  return lo + roll

/-- True in so many cases out of a hundred. -/
def chance (percent : Nat) : StateM σ Bool := do
  let roll ← dice.percentile
  return roll < percent

/-- One of a list, each with the same chance. -/
def sample {α : Type} (xs : List α) (h : 0 < xs.length) : StateM σ α := do
  let roll ← dice.below xs.length h
  return xs[roll]

/-- The results of repeating something. -/
def repeated {α : Type} (x : StateM σ α) : Nat → StateM σ (List α)
  | 0 => return []
  | n + 1 => do
    let a ← x
    let as ← repeated x n
    return a :: as

/-- A text over an alphabet, of a length from `lo` on and below `hi`.  The length is rolled
first. -/
def string (lo hi : Nat) (h : lo < hi) (alphabet : List Char) (ha : 0 < alphabet.length) :
    StateM σ (List Char) := do
  let length ← dice.range lo hi h
  repeated (dice.sample alphabet ha) length

end Dice

end RegexScan

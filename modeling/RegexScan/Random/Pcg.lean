import RegexScan.Random.Dice

/-!
# A permuted congruential generator

The state of 128 bits is multiplied at every draw.  Its two halves are folded into one word, which
is rotated by the topmost bits.  A seed therefore fixes all rolls.
-/

namespace RegexScan

/-- The state of a generator. -/
structure Pcg where
  state : BitVec 128
deriving DecidableEq, Repr

namespace Pcg

/-- The next word of the sequence that spreads a seed over the state. -/
def spread (s : BitVec 64) : BitVec 64 × BitVec 32 :=
  let s := s * 6364136223846793005#64 + 11634580027462260723#64
  (s, ((((s >>> 18) ^^^ s) >>> 27).setWidth 32).rotateRight (s >>> 59).toNat)

/-- The generator for a seed.  Its state is odd, as the multiplication needs it to be. -/
def seeded (seed : UInt64) : Pcg :=
  let (s, a) := spread seed.toBitVec
  let (s, b) := spread s
  let (s, c) := spread s
  let (_, d) := spread s
  ⟨(d ++ c ++ b ++ a).setWidth 128 ||| 1#128⟩

/-- The factor of every draw. -/
def multiplier : BitVec 128 := 0x2360ED051FC65DA44385DF649FCCF645#128

/-- Draw a word of 64 bits. -/
def next (g : Pcg) : BitVec 64 × Pcg :=
  let s := g.state * multiplier
  (((s >>> 64).setWidth 64 ^^^ s.setWidth 64).rotateRight (s >>> 122).toNat, ⟨s⟩)

/-- A number below `n` from draws of the given width.  A draw times `n` has the number in its high
half, and it counts only if its low half lies among the first multiples of `n` that fit a power of
two; otherwise another word is drawn, until the fuel is used up. -/
def belowWith (width n : Nat) (hn : 0 < n) : (fuel : Nat) → Pcg → Fin n × Pcg
  | 0, g => (⟨0, hn⟩, g)
  | fuel + 1, g =>
    let (word, g) := g.next
    let v := word.toNat % 2 ^ width
    let zone := n * 2 ^ (width - (n.log2 + 1)) - 1
    if v * n % 2 ^ width ≤ zone then
      have h : v * n / 2 ^ width < n :=
        Nat.div_lt_of_lt_mul (Nat.mul_lt_mul_of_pos_right (Nat.mod_lt _ (Nat.two_pow_pos _)) hn)
      (⟨v * n / 2 ^ width, h⟩, g)
    else belowWith width n hn fuel g

/-- How many draws there are before the generator repeats itself. -/
def period : Nat := Nat.pow 2 126

/-- Rolls of the generator: numbers from words of 64 bits, percentiles from their low 32 bits. -/
def dice : Dice Pcg where
  below n h := belowWith 64 n h period
  percentile := belowWith 32 100 (by decide) period

end Pcg

end RegexScan

import Edict.Number.Parts

/-!
# The shortest decimal that reads back

Many decimals read back as the same double.  `shortest` picks one with the fewest digits, and of
those the one nearest to the exact value.  It walks from coarse to fine decimal grids; on each grid
only the two neighbours of the value can be nearer than the neighbouring doubles, so two integer
comparisons decide it.  All arithmetic is on natural numbers.
-/

namespace Edict.Number

/-- The number `digits · 10 ^ exponent`. -/
structure Decimal where
  digits : Nat
  exponent : Int
deriving DecidableEq, Repr

/-- Which neighbour is taken by a value halfway between two decimals that both read back. -/
inductive Tie where
  | up
  | even
deriving DecidableEq, Repr

/-- Positive and negative part of an exponent, as natural numbers. -/
def expSplit (e : Int) : Nat × Nat := (e.toNat, (-e).toNat)

/-- Numerator and denominator of `2 ^ e / 10 ^ k`. -/
def gridRatio (e k : Int) : Nat × Nat :=
  let (up, down) := expSplit e
  let (fine, coarse) := expSplit (-k)
  (Nat.pow 2 up * Nat.pow 10 fine, Nat.pow 2 down * Nat.pow 10 coarse)

/-- The exponent of the smallest doubles. -/
def leastExponent : Int := -1074

/-- The reals that read back as `m · 2 ^ e`, in quarters of `2 ^ e`: half a step to either side, but
only a quarter step down from a power of two, where the doubles below lie twice as dense. -/
def readsBack (m : Nat) (e : Int) : Nat × Nat :=
  (if m = Nat.pow 2 52 ∧ leastExponent < e then 4 * m - 1 else 4 * m - 2, 4 * m + 2)

/-- The decimal on the grid `10 ^ k` that reads back as `m · 2 ^ e` and is nearest to it, if there
is one.  The two ends of the interval read back exactly when `m` is even. -/
def onGrid? (tie : Tie) (m : Nat) (e k : Int) : Option Nat :=
  let (p, q) := gridRatio (e - 2) k
  let (low, high) := readsBack m e
  let value := 4 * m * p
  let below := value / q
  let inside (c : Nat) : Bool :=
    if m % 2 = 0 then low * p ≤ c * q && c * q ≤ high * p
    else low * p < c * q && c * q < high * p
  match inside below, inside (below + 1) with
  | true, true =>
      let down := value - below * q
      let up := (below + 1) * q - value
      if down < up then some below
      else if up < down then some (below + 1)
      else match tie with
        | .up => some (below + 1)
        | .even => some (if below % 2 = 0 then below else below + 1)
  | true, false => some below
  | false, true => some (below + 1)
  | false, false => none

/-- Tries the grids `10 ^ k`, `10 ^ (k - 1)`, …; after `steps` of them it takes the value's lower
neighbour on the grid reached. -/
def searchGrids (tie : Tie) (m : Nat) (e : Int) : Nat → Int → Decimal
  | 0, k =>
      let (p, q) := gridRatio e k
      ⟨m * p / q, k⟩
  | steps + 1, k =>
      match onGrid? tie m e k with
      | some d => ⟨d, k⟩
      | none => searchGrids tie m e steps (k - 1)

/-- A power of ten above `m · 2 ^ e`: the logarithm of two is less than `0.30103`. -/
def coarsestGrid (m : Nat) (e : Int) : Int :=
  (((m.log2 : Int) + 1 + e) * 30103).fdiv 100000 + 2

/-- The fewest digits that read back as `m · 2 ^ e`, nearest to it.  The search ends at a grid that
holds the value itself: `1` if `e` is not negative, else `10 ^ e`. -/
def shortest (tie : Tie) (m : Nat) (e : Int) : Decimal :=
  let top := coarsestGrid m e
  searchGrids tie m e (top - min e 0).toNat top

end Edict.Number

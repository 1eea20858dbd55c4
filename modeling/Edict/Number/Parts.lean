/-!
# The exact parts of a number

A number is an IEEE double.  `Number.parts` reads off its sign and the integers `m` and `e` with
`|x| = m · 2 ^ e`, so that every rule on numbers that is not plain float arithmetic is a rule on
integers: which numbers count as list positions (`Number.toNat?`), rounding to whole numbers
(`Number.floor`, `Number.ceil`), and the sign (`Number.isNegative`).
-/

namespace Edict.Number

/-- A double taken apart.  A finite one stands for `± mantissa · 2 ^ exponent`; the mantissa is
zero exactly for the two zeros. -/
inductive Parts where
  | nan
  | infinite (negative : Bool)
  | finite (negative : Bool) (mantissa : Nat) (exponent : Int)
deriving DecidableEq, Repr

/-- The parts of a number. -/
def parts (x : Float) : Parts :=
  match x.toModel.unpack with
  | .notANumber => .nan
  | .infinity s => .infinite (s == .negative)
  | .zero s => .finite (s == .negative) 0 0
  | .finite s m e _ => .finite (s == .negative) m e

/-- Whether the sign is a minus; the negative zero has one, a NaN has none. -/
def isNegative (x : Float) : Bool :=
  match parts x with
  | .nan => false
  | .infinite negative => negative
  | .finite negative _ _ => negative

/-- Whether the number is one of the two zeros. -/
def isZero (x : Float) : Bool :=
  match parts x with
  | .finite _ m _ => m == 0
  | _ => false

/-! ## Whole numbers -/

/-- The whole part of `m · 2 ^ e`, and whether a fraction was cut off. -/
def whole (m : Nat) : Int → Nat × Bool
  | .ofNat k => (m * Nat.pow 2 k, false)
  | .negSucc k => (m / Nat.pow 2 (k + 1), m % Nat.pow 2 (k + 1) != 0)

/-- The natural number that `x` is, if it is one.  Both zeros are `0`. -/
def toNat? (x : Float) : Option Nat :=
  match parts x with
  | .finite negative m e =>
      let (n, cut) := whole m e
      if cut || (negative && n != 0) then none else some n
  | _ => none

/-- A natural number with a sign; `signed true 0` is the negative zero. -/
def signed (negative : Bool) (n : Nat) : Float :=
  if negative then -(Float.ofNat n) else Float.ofNat n

/-- The largest integer that is not above `x`.  Integers, infinities and NaN stay as they are. -/
def floor (x : Float) : Float :=
  match parts x with
  | .finite negative m e =>
      let (n, cut) := whole m e
      if cut then signed negative (if negative then n + 1 else n) else x
  | _ => x

/-- The smallest integer that is not below `x`; just below zero that is the negative zero. -/
def ceil (x : Float) : Float :=
  match parts x with
  | .finite negative m e =>
      let (n, cut) := whole m e
      if cut then signed negative (if negative then n else n + 1) else x
  | _ => x

/-! ## Order -/

/-- How two numbers compare: a NaN is not ordered with anything, the two zeros are equal. -/
def order? (x y : Float) : Option Ordering :=
  if x < y then some .lt
  else if y < x then some .gt
  else if x == y then some .eq
  else none

end Edict.Number

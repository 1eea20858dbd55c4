import Edict.Number.Parts

/-!
# Numbers with their signs

Every number has a sign, also a NaN that is written with a minus, although no computation can tell
it from a NaN without one.  A `Numeral` is a number together with its sign; the grammar needs it,
because a number with a minus after an operand is subtracted from that operand.
-/

namespace Edict

/-- A number and its sign.  The sign is that of the value, unless the value is a NaN. -/
structure Numeral where
  value : Float
  negative : Bool
  sign : value.isNaN = true ∨ negative = Number.isNegative value
deriving DecidableEq, Repr

namespace Numeral

/-- The numeral of a value that was written with a minus sign or without one. -/
def ofWritten (minus : Bool) (x : Float) : Numeral :=
  if h : x.isNaN = true then ⟨x, minus, .inl h⟩ else ⟨x, Number.isNegative x, .inr rfl⟩

/-- A sign that is written keeps the value. -/
@[simp] theorem value_ofWritten (minus : Bool) (x : Float) : (ofWritten minus x).value = x := by
  unfold ofWritten
  split <;> rfl

/-- The value of the numeral, if it has a minus sign. -/
def negative? (n : Numeral) : Option Float := if n.negative then some n.value else none

end Numeral

end Edict

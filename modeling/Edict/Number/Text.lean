import Edict.Number.Shortest

/-!
# Numbers as text

`Number.write` lays the shortest digits of a number out by a `Layout`.  The language itself writes
every number in positional notation (`Number.text`); the JSON form switches to an exponent for very
large and very small numbers and marks whole numbers by `.0` (`Number.Layout.json`).
-/

namespace Edict.Number

/-- The decisions that a written form of numbers takes. -/
structure Layout where
  /-- Which of two equally near shortest decimals is written. -/
  tie : Tie
  /-- Whether a number whose decimal point stands behind that many of its digits (before them, if
  negative) is written without an exponent. -/
  positional : Int → Bool
  /-- What follows the digits of a whole number. -/
  wholeMark : String

/-- The language's own form: always positional, whole numbers without a fraction, halves up. -/
def Layout.rules : Layout := ⟨.up, fun _ => true, ""⟩

/-- The JSON form: an exponent from `1e16` on and below `1e-5`, whole numbers end in `.0`, halves go
to the even digit. -/
def Layout.json : Layout := ⟨.even, fun point => -5 < point && point ≤ 16, ".0"⟩

/-- A run of zeros. -/
def zeros (n : Nat) : String := String.ofList (List.replicate n '0')

/-- A decimal without an exponent. -/
def positionalText (wholeMark : String) (d : Decimal) : String :=
  let digits := (Nat.repr d.digits).toList
  let point := (digits.length : Int) + d.exponent
  if 0 ≤ d.exponent then
    String.ofList digits ++ zeros d.exponent.toNat ++ wholeMark
  else if 0 < point then
    String.ofList (digits.take point.toNat) ++ "." ++ String.ofList (digits.drop point.toNat)
  else
    "0." ++ zeros (-point).toNat ++ String.ofList digits

/-- A decimal with one digit before the point and an exponent, which always has a sign. -/
def scientificText (d : Decimal) : String :=
  let digits := (Nat.repr d.digits).toList
  let exponent := (digits.length : Int) + d.exponent - 1
  let fraction := if digits.length ≤ 1 then "" else "." ++ String.ofList (digits.drop 1)
  String.ofList (digits.take 1) ++ fraction ++ "e" ++
    (if exponent < 0 then "-" else "+") ++ Nat.repr exponent.natAbs

/-- A decimal in the given layout. -/
def Decimal.write (layout : Layout) (d : Decimal) : String :=
  if layout.positional ((Nat.repr d.digits).length + d.exponent) then
    positionalText layout.wholeMark d
  else
    scientificText d

/-- A number in the given layout, with the sign of a negative zero. -/
def write (layout : Layout) (x : Float) : String :=
  match parts x with
  | .nan => "NaN"
  | .infinite negative => if negative then "-inf" else "inf"
  | .finite negative m e =>
      let d := if m = 0 then ⟨0, 0⟩ else shortest layout.tie m e
      if negative then "-" ++ d.write layout else d.write layout

/-- A number the way rules write it: `6`, `-0`, `2.5`, never with an exponent. -/
def text (x : Float) : String := write Layout.rules x

end Edict.Number

import Edict.Number.Numeral
import Edict.Number.Shortest

/-!
# Reading numbers

`Numeral.ofChars?` reads a decimal number: digits with an optional point, at least one digit, an
optional exponent, an optional sign; besides it knows `nan`, `inf` and `infinity` in any letter
case. The result is the double nearest to the decimal, halves to even; too large a decimal is
infinite.
-/

namespace Edict

namespace Number

/-- The value of a run of decimal digits. -/
def digitsValue (ds : List Char) : Nat :=
  ds.foldl (fun n d => 10 * n + (d.toNat - '0'.toNat)) 0

/-- An exponent mark with its digits, if there is one; `none` if the mark has no digits or something
else stands there. -/
def exponentOf? : List Char → Option Int
  | [] => some 0
  | mark :: cs =>
      if mark = 'e' ∨ mark = 'E' then
        let (negative, ds) := match cs with
          | '-' :: ds => (true, ds)
          | '+' :: ds => (false, ds)
          | ds => (false, ds)
        if ds ≠ [] ∧ ds.all Char.isDigit then
          let n : Int := digitsValue ds
          some (if negative then -n else n)
        else none
      else none

/-- The double nearest to `digits · 10 ^ exponent`. -/
def ofDecimal (d : Decimal) : Float :=
  match d.exponent with
  | .ofNat k => Float.ofScientific d.digits false k
  | .negSucc k => Float.ofScientific d.digits true (k + 1)

/-- An unsigned decimal number. -/
def unsigned? (cs : List Char) : Option Float :=
  let front := cs.takeWhile Char.isDigit
  let (fraction, after) := match cs.dropWhile Char.isDigit with
    | '.' :: r => (r.takeWhile Char.isDigit, r.dropWhile Char.isDigit)
    | r => ([], r)
  if front ++ fraction = [] then none
  else do
    let exponent ← exponentOf? after
    return ofDecimal ⟨digitsValue (front ++ fraction), exponent - fraction.length⟩

/-- An unsigned number or one of the names of the special ones. -/
def magnitude? (cs : List Char) : Option Float :=
  let word := cs.map Char.toLower
  if word = "nan".toList then some (0.0 / 0.0)
  else if word = "inf".toList ∨ word = "infinity".toList then some (1.0 / 0.0)
  else unsigned? cs

end Number

namespace Numeral

/-- A number, with an optional sign before it. -/
def ofChars? : List Char → Option Numeral
  | '-' :: cs => (Number.magnitude? cs).map fun x => ofWritten true (-x)
  | '+' :: cs => (Number.magnitude? cs).map (ofWritten false)
  | cs => (Number.magnitude? cs).map (ofWritten false)

/-- The numeral that a text writes. -/
def ofText? (text : String) : Option Numeral := ofChars? text.toList

end Numeral

/-- The number that a text writes. -/
def Number.ofText? (text : String) : Option Float := (Numeral.ofText? text).map (·.value)

end Edict

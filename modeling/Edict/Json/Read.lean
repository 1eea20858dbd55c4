import Edict.Parsed
import Edict.Number.Reading
import Edict.Value.Basic

/-!
# Reading values from JSON

`Value.ofJson?` reads a JSON text as a value: `null` is `absent`, an object is a map in which the
last of several entries with one name counts.  Arrays and objects may be nested 127 deep.

Numbers have a rule of their own.  Their digits are collected into a natural number below `2 ^ 64`;
an integer that fits is rounded once.  Every other number is that significand, rounded, times or
divided by a power of ten, rounded again, so the result may differ from the nearest double in the
last place. A number that would be infinite is an error.
-/

namespace Edict

namespace Json

/-- The result of a reader of characters. -/
abbrev Result (α : Type) (bound : Nat) := Option (Parsed Char α bound)

/-! ## Blanks and fixed words -/

/-- Space, tab, line feed and carriage return. -/
def isBlank (c : Char) : Bool := c == ' ' || c == '\t' || c == '\n' || c == '\r'

/-- The text from its first character that is no blank. -/
def skipBlanks (cs : List Char) : List Char := cs.dropWhile isBlank

/-- Skipping blanks makes no text longer. -/
theorem length_skipBlanks_le (cs : List Char) : (skipBlanks cs).length ≤ cs.length :=
  (List.dropWhile_suffix _).length_le

/-- What is behind the first character that is no blank is shorter than the text. -/
theorem length_lt_of_skipBlanks {cs rest : List Char} {c : Char} (h : skipBlanks cs = c :: rest) :
    rest.length < cs.length := by
  have hle := length_skipBlanks_le cs
  rw [h] at hle
  exact hle

/-- Reads the rest of a fixed word. -/
def literal {α : Type} (a : α) (word cs : List Char) : Result α (cs.length + 1) :=
  if word.isPrefixOf cs then
    some ⟨a, cs.drop word.length, Nat.lt_succ_of_le (List.drop_suffix _ _).length_le⟩
  else none

/-! ## Numbers -/

/-- The largest significand. -/
def maxSignificand : Nat := Nat.pow 2 64 - 1

/-- Collects digits as long as the significand stays small enough; counts how many were taken. -/
def collect (significand taken : Nat) : List Char → Nat × Nat × List Char
  | [] => (significand, taken, [])
  | c :: cs =>
      if c.isDigit then
        let next := 10 * significand + (c.toNat - '0'.toNat)
        if next ≤ maxSignificand then collect next (taken + 1) cs
        else (significand, taken, c :: cs)
      else (significand, taken, c :: cs)

/-- Divides by `10 ^ 308` until what is left of a negative exponent is a double itself. -/
def scaleDown : Nat → Float → Nat → Float
  | 0, x, _ => x
  | steps + 1, x, exponent =>
      if exponent ≤ 308 then x / Float.ofScientific 1 false exponent
      else if Number.isZero x then x
      else scaleDown steps (x / Float.ofScientific 1 false 308) (exponent - 308)

/-- A significand times a power of ten, rounded in each step; `none` if it is too large. -/
def scaled? (significand : Nat) (exponent : Int) : Option Float :=
  let x := Float.ofNat significand
  match exponent with
  | .ofNat k =>
      if k ≤ 308 then
        let y := x * Float.ofScientific 1 false k
        if y.isInf then none else some y
      else if Number.isZero x then some x else none
  | .negSucc k => some (scaleDown (k / 308 + 2) x (k + 1))

/-- The number with an exponent mark or without one, after its digits. -/
def afterDigits? (significand : Nat) (exponent : Int) (cs : List Char) :
    Option (Float × List Char) := do
  match cs with
  | mark :: rest =>
      if mark = 'e' ∨ mark = 'E' then
        let (negative, rest) := match rest with
          | '-' :: r => (true, r)
          | '+' :: r => (false, r)
          | r => (false, r)
        let digits := rest.takeWhile Char.isDigit
        if digits = [] then none
        else
          let n : Int := Number.digitsValue digits
          let x ← scaled? significand (if negative then exponent - n else exponent + n)
          return (x, rest.dropWhile Char.isDigit)
      else return (← scaled? significand exponent, cs)
  | [] => return (← scaled? significand exponent, [])

/-- The part of a number after its decimal point. -/
def afterPoint? (significand : Nat) (exponent : Int) (cs : List Char) :
    Option (Float × List Char) :=
  let (s, taken, rest) := collect significand 0 cs
  let overflow := (rest.head?.any Char.isDigit)
  if taken = 0 ∧ ¬overflow then none
  else afterDigits? s (exponent - taken) (rest.dropWhile Char.isDigit)

/-- The number whose significand so far is given, after digits that did not fit into it. -/
def afterInteger? (significand : Nat) (exponent : Nat) (cs : List Char) :
    Option (Float × List Char) :=
  match cs with
  | '.' :: rest => afterPoint? significand exponent rest
  | cs => afterDigits? significand exponent cs

/-- A number without its sign. -/
def magnitude? (cs : List Char) : Option (Float × List Char) :=
  match cs with
  | '0' :: rest =>
      if rest.head?.any Char.isDigit then none else afterInteger? 0 0 rest
  | cs =>
      let (s, taken, rest) := collect 0 0 cs
      if taken = 0 then none
      else
        let dropped := rest.takeWhile Char.isDigit
        afterInteger? s dropped.length (rest.dropWhile Char.isDigit)

/-- Reads a number. -/
def number? (cs : List Char) : Result Value cs.length := do
  let (x, rest) ← match cs with
    | '-' :: r => (magnitude? r).map fun p => (-p.1, p.2)
    | r => magnitude? r
  if h : rest.length < cs.length then return ⟨.number x, rest, h⟩ else none

/-! ## Texts -/

/-- The value of a hexadecimal digit. -/
def hexValue? (c : Char) : Option Nat :=
  if c.isDigit then some (c.toNat - '0'.toNat)
  else if 'a' ≤ c ∧ c ≤ 'f' then some (c.toNat - 'a'.toNat + 10)
  else if 'A' ≤ c ∧ c ≤ 'F' then some (c.toNat - 'A'.toNat + 10)
  else none

/-- The value of four hexadecimal digits. -/
def unit? (a b c d : Char) : Option Nat := do
  return ((16 * (← hexValue? a) + (← hexValue? b)) * 16 + (← hexValue? c)) * 16 + (← hexValue? d)

/-- The character of a short escape. -/
def shortEscape? : Char → Option Char
  | '"' => some '"'
  | '\\' => some '\\'
  | '/' => some '/'
  | 'b' => some '\x08'
  | 'f' => some '\x0c'
  | 'n' => some '\n'
  | 'r' => some '\r'
  | 't' => some '\t'
  | _ => none

/-- Reads the characters of a text up to the closing quote.  A character beyond the first plane is
escaped as a pair of surrogates; a single surrogate is an error. -/
def characters : (cs : List Char) → Result (List Char) cs.length
  | [] => none
  | '"' :: rest => some ⟨[], rest, Nat.lt_succ_self _⟩
  | '\\' :: 'u' :: a :: b :: c :: d :: rest => do
      let high ← unit? a b c d
      if 0xdc00 ≤ high ∧ high ≤ 0xdfff then none
      else if 0xd800 ≤ high ∧ high ≤ 0xdbff then
        match hr : rest with
        | '\\' :: 'u' :: a' :: b' :: c' :: d' :: rest' => do
            let low ← unit? a' b' c' d'
            if 0xdc00 ≤ low ∧ low ≤ 0xdfff then
              let more ← characters rest'
              return more.map
                (Char.ofNat ((high - 0xd800) * 0x400 + (low - 0xdc00) + 0x10000) :: ·)
                (hr ▸ Nat.le_add_right _ 12)
            else none
        | _ => none
      else
        let more ← characters rest
        return more.map (Char.ofNat high :: ·) (Nat.le_add_right _ 6)
  | '\\' :: e :: rest => do
      let c ← shortEscape? e
      let more ← characters rest
      return more.map (c :: ·) (Nat.le_add_right _ 2)
  | c :: rest =>
      if c.toNat < 0x20 ∨ c = '\\' then none
      else do
        let more ← characters rest
        return more.map (c :: ·) (Nat.le_succ _)

/-- Reads a text, from its opening quote on. -/
def text (cs : List Char) : Result String cs.length :=
  match cs with
  | '"' :: rest => do
      let inside ← characters rest
      return inside.map String.ofList (Nat.le_succ _)
  | _ => none

/-! ## Arrays and objects -/

/-- A reader of JSON values. -/
abbrev ValueReader := (cs : List Char) → Result Value cs.length

/-- The items of an array after the first one has begun, up to and including the closing bracket. -/
def items (value : ValueReader) (cs : List Char) : Result (List Value) cs.length := do
  let first ← value cs
  match hr : skipBlanks first.rest with
  | ',' :: rest =>
      have hrest : (skipBlanks rest).length < cs.length :=
        Nat.lt_of_le_of_lt (length_skipBlanks_le rest)
          (Nat.lt_trans (length_lt_of_skipBlanks hr) first.shorter)
      let more ← items value (skipBlanks rest)
      return more.map (first.value :: ·) (Nat.le_of_lt hrest)
  | ']' :: rest =>
      return ⟨[first.value], rest, Nat.lt_trans (length_lt_of_skipBlanks hr) first.shorter⟩
  | _ => none
termination_by cs.length
decreasing_by exact hrest

/-- A name, a colon and a value. -/
def pair (value : ValueReader) (cs : List Char) : Result (String × Value) cs.length := do
  let name ← text cs
  match hr : skipBlanks name.rest with
  | ':' :: rest =>
      let v ← value (skipBlanks rest)
      return v.map (name.value, ·) (Nat.le_trans (length_skipBlanks_le rest)
        (Nat.le_of_lt (Nat.lt_trans (length_lt_of_skipBlanks hr) name.shorter)))
  | _ => none

/-- The pairs of an object after the first one has begun, up to and including the closing brace. -/
def pairs (value : ValueReader) (cs : List Char) : Result (List (String × Value)) cs.length := do
  let first ← pair value cs
  match hr : skipBlanks first.rest with
  | ',' :: rest =>
      have hrest : (skipBlanks rest).length < cs.length :=
        Nat.lt_of_le_of_lt (length_skipBlanks_le rest)
          (Nat.lt_trans (length_lt_of_skipBlanks hr) first.shorter)
      let more ← pairs value (skipBlanks rest)
      return more.map (first.value :: ·) (Nat.le_of_lt hrest)
  | '}' :: rest =>
      return ⟨[first.value], rest, Nat.lt_trans (length_lt_of_skipBlanks hr) first.shorter⟩
  | _ => none
termination_by cs.length
decreasing_by exact hrest

/-- Reads an array after its opening bracket. -/
def array (value : ValueReader) (cs : List Char) : Result Value (cs.length + 1) :=
  match hr : skipBlanks cs with
  | ']' :: rest => some ⟨.list [], rest, Nat.lt_succ_of_lt (length_lt_of_skipBlanks hr)⟩
  | _ => do
      let vs ← items value (skipBlanks cs)
      return vs.map .list (Nat.le_succ_of_le (length_skipBlanks_le cs))

/-- Reads an object after its opening brace. -/
def object (value : ValueReader) (cs : List Char) : Result Value (cs.length + 1) :=
  match hr : skipBlanks cs with
  | '}' :: rest => some ⟨.map [], rest, Nat.lt_succ_of_lt (length_lt_of_skipBlanks hr)⟩
  | _ => do
      let ps ← pairs value (skipBlanks cs)
      return ps.map (fun ps => .map (Entries.ofList ps))
        (Nat.le_succ_of_le (length_skipBlanks_le cs))

/-! ## Values -/

/-- Reads a value in which arrays and objects are nested at most `depth` deep. -/
def value (depth : Nat) : ValueReader := fun cs =>
  match depth, cs with
  | _, 'n' :: rest => do
      let v ← literal .absent "ull".toList rest
      return v.map id (Nat.le_refl _)
  | _, 't' :: rest => do
      let v ← literal (.bool true) "rue".toList rest
      return v.map id (Nat.le_refl _)
  | _, 'f' :: rest => do
      let v ← literal (.bool false) "alse".toList rest
      return v.map id (Nat.le_refl _)
  | _, '"' :: rest => do
      let s ← text ('"' :: rest)
      return s.map .text (Nat.le_refl _)
  | depth + 1, '[' :: rest => do
      let v ← array (value depth) rest
      return v.map id (Nat.le_refl _)
  | depth + 1, '{' :: rest => do
      let v ← object (value depth) rest
      return v.map id (Nat.le_refl _)
  | _, cs => number? cs

/-- How deep arrays and objects may be nested. -/
def maxDepth : Nat := 127

end Json

/-- The value that a JSON text stands for. -/
def Value.ofJson? (source : String) : Option Value := do
  let v ← Json.value Json.maxDepth (Json.skipBlanks source.toList)
  if Json.skipBlanks v.rest = [] then return v.value else none

end Edict

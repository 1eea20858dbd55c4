import Edict.Number.Text
import Edict.Value.Display

/-!
# Writing values as JSON

`Value.json` writes a value without blanks, maps in the order of their keys.  In texts only quotes,
backslashes and control characters are escaped.  JSON has no infinities and no NaN; they are written
as `null`, like `absent`.
-/

namespace Edict

namespace Json

/-- A hexadecimal digit. -/
def hexDigit (n : Nat) : Char := Nat.digitChar n

/-- A character inside a JSON text. -/
def escaped (c : Char) : List Char :=
  match c with
  | '"' => ['\\', '"']
  | '\\' => ['\\', '\\']
  | '\x08' => ['\\', 'b']
  | '\x0c' => ['\\', 'f']
  | '\n' => ['\\', 'n']
  | '\r' => ['\\', 'r']
  | '\t' => ['\\', 't']
  | c =>
      if c.toNat < 0x20 then
        ['\\', 'u', '0', '0', hexDigit (c.toNat / 16), hexDigit (c.toNat % 16)]
      else [c]

/-- A text as JSON. -/
def writeText (s : String) : String :=
  "\"" ++ String.ofList (s.toList.flatMap escaped) ++ "\""

/-- A number as JSON. -/
def writeNumber (x : Float) : String :=
  if x.isFinite then Number.write Number.Layout.json x else "null"

/-- Texts with commas between them and no blanks. -/
def joined (texts : List String) : String := ",".intercalate texts

end Json

namespace Value

mutual

/-- A value as JSON. -/
def json : Value → String
  | .number x => Json.writeNumber x
  | .text s => Json.writeText s
  | .bool b => boolText b
  | .list items => "[" ++ Json.joined (jsonItems items) ++ "]"
  | .map entries => "\x7b" ++ Json.joined (jsonEntries entries) ++ "\x7d"
  | .absent => "null"

/-- The items of a list as JSON. -/
def jsonItems : List Value → List String
  | [] => []
  | v :: rest => json v :: jsonItems rest

/-- The entries of a map as JSON. -/
def jsonEntries : List (String × Value) → List String
  | [] => []
  | (k, v) :: rest => (Json.writeText k ++ ":" ++ json v) :: jsonEntries rest

end

end Value

end Edict

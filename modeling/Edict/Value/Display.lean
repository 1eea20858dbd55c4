import Edict.Expr.Display
import Edict.Value.Basic

/-!
# Values as text

`Value.display` is how a value looks in logs and in longer texts: a text stands as it is, but
between quotes when it is inside a list or a map.
-/

namespace Edict

namespace Value

mutual

/-- A value as text. -/
def display : Value → String
  | .number x => Number.text x
  | .text s => s
  | .bool b => boolText b
  | .list items => "[" ++ commaSeparated (displayItems items) ++ "]"
  | .map entries => "\x7b" ++ commaSeparated (displayEntries entries) ++ "\x7d"
  | .absent => "absent"

/-- The texts of the items of a list. -/
def displayItems : List Value → List String
  | [] => []
  | .text s :: rest => quoted s :: displayItems rest
  | v :: rest => display v :: displayItems rest

/-- The texts of the entries of a map. -/
def displayEntries : List (String × Value) → List String
  | [] => []
  | (k, .text s) :: rest => (quoted k ++ ": " ++ quoted s) :: displayEntries rest
  | (k, v) :: rest => (quoted k ++ ": " ++ display v) :: displayEntries rest

end

end Value

end Edict

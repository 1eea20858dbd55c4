import Edict.Value.Display

/-!
# Keys

A step into a value, with its index evaluated.
-/

namespace Edict

/-- A resolved step: a field name or the value of an index. -/
inductive Key where
  | field (name : String)
  | index (value : Value)

/-- A key as it is named in messages. -/
def Key.text : Key → String
  | .field name => "`." ++ name ++ "`"
  | .index v => "`[" ++ v.display ++ "]`"

end Edict

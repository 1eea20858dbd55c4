import Edict.Number.Text

/-!
# Literals

The constants that a program writes: texts, numbers and truth values.
-/

namespace Edict

/-- A constant. -/
inductive Literal where
  | text (value : String)
  | number (value : Float)
  | bool (value : Bool)
deriving DecidableEq, Repr

/-- A truth value as the language writes it. -/
def boolText (b : Bool) : String := if b then "true" else "false"

/-- A text between single quotes; nothing in it is escaped. -/
def quoted (s : String) : String := "'" ++ s ++ "'"

/-- A literal as the language writes it. -/
def Literal.display : Literal → String
  | .text s => quoted s
  | .number x => Number.text x
  | .bool b => boolText b

/-- Whether two literals are equal, numbers compared as numbers: the two zeros are equal and a NaN
is not equal to itself. -/
def Literal.same : Literal → Literal → Bool
  | .text s, .text t => s == t
  | .number x, .number y => x == y
  | .bool a, .bool b => a == b
  | _, _ => false

end Edict

import Edict.Entries
import Edict.Literal

/-!
# Values

What a program computes with.  `absent` stands for a field that a map does not have, for an object
that the model does not know, and for the result of a call that has none.  Maps keep their entries
in ascending order of keys.
-/

namespace Edict

/-- A value. -/
inductive Value where
  | number (value : Float)
  | text (value : String)
  | bool (value : Bool)
  | list (items : List Value)
  | map (entries : List (String × Value))
  | absent
deriving Inhabited

/-- The kinds of values. -/
inductive Kind where
  | number
  | string
  | bool
  | list
  | map
  | absent
deriving DecidableEq, Repr

/-- The name of a kind. -/
def Kind.name : Kind → String
  | .number => "number"
  | .string => "string"
  | .bool => "bool"
  | .list => "list"
  | .map => "map"
  | .absent => "absent"

/-- A literal as a value. -/
def Literal.value : Literal → Value
  | .text s => .text s
  | .number x => .number x
  | .bool b => .bool b

namespace Value

/-- The kind of a value. -/
def kind : Value → Kind
  | .number _ => .number
  | .text _ => .string
  | .bool _ => .bool
  | .list _ => .list
  | .map _ => .map
  | .absent => .absent

/-- Whether a value counts as true.  False are `absent`, `false`, the zeros, NaN and the empty
text. -/
def truthy : Value → Bool
  | .absent => false
  | .bool b => b
  | .number x => x != 0 && !x.isNaN
  | .text s => !s.isEmpty
  | .list _ => true
  | .map _ => true

/-- The number that a value is. -/
def number? : Value → Option Float
  | .number x => some x
  | _ => none

/-- The text that a value is. -/
def text? : Value → Option String
  | .text s => some s
  | _ => none

/-- Whether the value is `absent`. -/
def isAbsent : Value → Bool
  | .absent => true
  | _ => false

/-! ## Equality -/

mutual

/-- The equality of the language.  Numbers are compared as numbers, so the two zeros are equal and a
NaN, or anything that holds one, is not equal to itself. -/
def same : Value → Value → Bool
  | .number x, .number y => x == y
  | .text s, .text t => s == t
  | .bool a, .bool b => a == b
  | .list xs, .list ys => sameItems xs ys
  | .map es, .map fs => sameEntries es fs
  | .absent, .absent => true
  | _, _ => false

/-- Equality of the items of lists. -/
def sameItems : List Value → List Value → Bool
  | [], [] => true
  | x :: xs, y :: ys => same x y && sameItems xs ys
  | _, _ => false

/-- Equality of the entries of maps. -/
def sameEntries : List (String × Value) → List (String × Value) → Bool
  | [], [] => true
  | (k, x) :: es, (l, y) :: fs => k == l && same x y && sameEntries es fs
  | _, _ => false

end

/-- Whether an item of a list is equal to a value. -/
def memberOf (x : Value) (items : List Value) : Bool := items.any (same · x)

/-! ## Maps in order -/

mutual

/-- Every map in the value has its entries in ascending order of keys. -/
def Ordered : Value → Prop
  | .list items => OrderedItems items
  | .map entries => Entries.Ascending entries ∧ OrderedEntries entries
  | _ => True

/-- The items of a list are ordered values. -/
def OrderedItems : List Value → Prop
  | [] => True
  | v :: rest => Ordered v ∧ OrderedItems rest

/-- The values in the entries of a map are ordered. -/
def OrderedEntries : List (String × Value) → Prop
  | [] => True
  | (_, v) :: rest => Ordered v ∧ OrderedEntries rest

end

end Value

end Edict

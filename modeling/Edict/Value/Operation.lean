import Edict.Fault

/-!
# Operations on values

Arithmetic, order, comparison and the combinators, and the built-in functions that only compute.
Nothing here looks at a context.
-/

namespace Edict

namespace Value

/-! ## Arithmetic -/

/-- Arithmetic on numbers follows IEEE 754; division by zero gives an infinity or NaN. -/
def arithNumbers : ArithOp → Float → Float → Float
  | .add, x, y => x + y
  | .sub, x, y => x - y
  | .mul, x, y => x * y
  | .div, x, y => x / y

/-- Arithmetic.  `+` with a text on either side joins the two values as texts; all else needs two
numbers, and the first operand that is none is at fault. -/
def arith (op : ArithOp) (left right : Value) : Except Fault Value :=
  match op, left, right with
  | op, .number x, .number y => .ok (.number (arithNumbers op x y))
  | .add, .text s, v => .ok (.text (s ++ v.display))
  | .add, v, .text s => .ok (.text (v.display ++ s))
  | op, .number _, v => .error (.wrongKind (.arith op) (.kind .number) v)
  | op, v, _ => .error (.wrongKind (.arith op) (.kind .number) v)

/-! ## Order and comparison -/

/-- The order of texts by their characters. -/
def orderTexts (s t : String) : Ordering :=
  if s < t then .lt else if s = t then .eq else .gt

/-- How two numbers or two texts compare; `none` if one of the numbers is NaN. -/
def ordering (site : Site) : Value → Value → Except Fault (Option Ordering)
  | .number x, .number y => .ok (Number.order? x y)
  | .text s, .text t => .ok (some (orderTexts s t))
  | .number _, v => .error (.wrongKind site (.kind .number) v)
  | .text _, v => .error (.wrongKind site (.kind .string) v)
  | v, _ => .error (.wrongKind site (.kinds .number [.string]) v)

/-- Whether `needle` occurs in `hay` as a run of consecutive characters. -/
def occursIn (needle : List Char) : List Char → Bool
  | [] => needle.isEmpty
  | c :: rest => needle.isPrefixOf (c :: rest) || occursIn needle rest

/-- Membership: an item of a list, a key of a map, a part of a text. -/
def isIn (needle : Value) : Value → Except Fault Bool
  | .list items => .ok (memberOf needle items)
  | .map entries =>
      match needle with
      | .text key => .ok (Entries.contains key entries)
      | .number x => .ok (Entries.contains (Number.text x) entries)
      | _ => .ok false
  | .text s => .ok (occursIn needle.display.toList s.toList)
  | v => .error (.wrongKind (.compare .isIn) (.kinds .list [.map, .string]) v)

/-- Whether a comparison holds.  Only equality and membership compare values of different kinds. -/
def compare (op : CompareOp) (left right : Value) : Except Fault Bool :=
  match op with
  | .eq => .ok (left.same right)
  | .notEq => .ok (!left.same right)
  | .lt => return (← ordering (.compare .lt) left right) == some .lt
  | .ltEq => return (← ordering (.compare .ltEq) left right).any (·.isLE)
  | .gt => return (← ordering (.compare .gt) left right) == some .gt
  | .gtEq => return (← ordering (.compare .gtEq) left right).any (·.isGE)
  | .isIn => isIn left right

/-- Joins two values as conditions. -/
def combine (op : Combinator) (left right : Value) : Bool :=
  match op with
  | .and => left.truthy && right.truthy
  | .or => left.truthy || right.truthy
  | .not => left.truthy && !right.truthy

end Value

/-! ## Functions that only compute -/

namespace Builtin

/-- Refuses a number of arguments that the function does not take. -/
def checkArity (f : Builtin) (found : Nat) : Except Fault Unit :=
  match f.arity? with
  | some expected => if expected = found then .ok () else .error (.arity f expected found)
  | none => .ok ()

/-- Goes on with the search for the extreme value: only a candidate that is strictly better than the
best one so far replaces it. -/
def extremeFrom (f : Builtin) (wanted : Ordering) (best : Value) : List Value → Except Fault Value
  | [] => .ok best
  | candidate :: rest => do
      let o ← Value.ordering (.builtin f) candidate best
      extremeFrom f wanted (if o = some wanted then candidate else best) rest

/-- The first of the values to which no other one stands in the `wanted` relation; `absent` if there
are no values. -/
def extreme (f : Builtin) (wanted : Ordering) : List Value → Except Fault Value
  | [] => .ok .absent
  | first :: rest => extremeFrom f wanted first rest

/-- Applies a function on numbers to a value. -/
def onNumber (f : Builtin) (g : Float → Float) : Value → Except Fault Value
  | .number x => .ok (.number (g x))
  | v => .error (.wrongKind (.builtin f) (.kind .number) v)

end Builtin

end Edict

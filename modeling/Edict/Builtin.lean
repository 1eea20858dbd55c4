/-!
# Built-in functions

The functions that a program can call.  Letter case does not matter in their names.
-/

namespace Edict

/-- A built-in function. -/
inductive Builtin where
  | max
  | min
  | abs
  | ceil
  | floor
  | log
  | append
  | getNode
  | getLink
deriving DecidableEq, Repr

namespace Builtin

/-- The name of a function in its usual spelling. -/
def name : Builtin → String
  | .max => "MAX"
  | .min => "MIN"
  | .abs => "ABS"
  | .ceil => "CEIL"
  | .floor => "FLOOR"
  | .log => "LOG"
  | .append => "APPEND"
  | .getNode => "GETNODE"
  | .getLink => "GETLINK"

/-- All functions. -/
def all : List Builtin := [.max, .min, .abs, .ceil, .floor, .log, .append, .getNode, .getLink]

/-- The function of a name, ASCII letters in either case. -/
def ofName? (s : String) : Option Builtin := all.find? (·.name.toList == s.toList.map Char.toUpper)

/-- How many arguments a function takes; `none` if it takes any number. -/
def arity? : Builtin → Option Nat
  | .max => none
  | .min => none
  | .append => some 2
  | _ => some 1

end Builtin

end Edict

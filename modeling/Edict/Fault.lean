import Edict.Builtin
import Edict.Value.Key

/-!
# Faults

What can go wrong while a program runs.  The first fault ends the run.
-/

namespace Edict

/-- The operation that was given a value of a wrong kind. -/
inductive Site where
  | arith (op : ArithOp)
  | compare (op : CompareOp)
  | builtin (f : Builtin)
  | loopCount
  | forEach
  | mapKey
  | listIndex
  | step (key : Key)
  /-- An operation of the host, under the host's name for it. -/
  | host (name : String)

/-- The operation as it is named in messages. -/
def Site.text : Site → String
  | .arith op => "`" ++ op.symbol ++ "`"
  | .compare op => "`" ++ op.symbol ++ "`"
  | .builtin f => f.name
  | .loopCount => "loop count"
  | .forEach => "`for each`"
  | .mapKey => "map key"
  | .listIndex => "list index"
  | .step key => key.text
  | .host name => name

/-- What an operation asks for. -/
inductive Wanted where
  /-- A value of one of these kinds. -/
  | kinds (first : Kind) (others : List Kind)
  | existingField
  | referenceToList

/-- Alternatives in words: `a`, `a or b`, `a, b or c`. -/
def alternatives (first : String) : List String → String
  | [] => first
  | [last] => first ++ " or " ++ last
  | next :: rest => first ++ ", " ++ alternatives next rest

/-- What is wanted, in words. -/
def Wanted.text : Wanted → String
  | .kinds first others => alternatives first.name (others.map Kind.name)
  | .existingField => "existing field"
  | .referenceToList => "reference to a list"

/-- A value of exactly this kind. -/
def Wanted.kind (k : Kind) : Wanted := .kinds k []

/-- What an operation was given instead. -/
inductive Given where
  | kind (k : Kind)
  /-- An expression that is no reference. -/
  | expression
deriving DecidableEq, Repr

/-- What is given, in words. -/
def Given.text : Given → String
  | .kind k => k.name
  | .expression => "expression"

/-- Why a run ends early. -/
inductive Fault where
  | unbound (name : String)
  | mismatch (site : Site) (wanted : Wanted) (given : Given)
  | unknownFunction (name : String)
  /-- A number that is no position in a list of this length. -/
  | indexOutOfRange (index : Float) (length : Nat)
  | arity (function : Builtin) (expected found : Nat)
  /-- A function that needs a model, in a context without one. -/
  | missingModel (function : Builtin)

namespace Fault

/-- The fault in words. -/
def message : Fault → String
  | .unbound name => "unbound variable `" ++ name ++ "`"
  | .mismatch site wanted given =>
      "type mismatch in " ++ site.text ++ ": expected " ++ wanted.text ++ ", found " ++ given.text
  | .unknownFunction name => "unknown function `" ++ name ++ "`"
  | .indexOutOfRange index length =>
      "index " ++ Number.text index ++ " out of range for list of length " ++ Nat.repr length
  | .arity f expected found =>
      "`" ++ f.name ++ "` expects " ++ Nat.repr expected ++ " argument(s), found " ++
        Nat.repr found
  | .missingModel f => "missing capability: " ++ f.name

/-- A value of the kind `given` where `wanted` is asked for. -/
def wrongKind (site : Site) (wanted : Wanted) (given : Value) : Fault :=
  .mismatch site wanted (.kind given.kind)

end Fault

end Edict

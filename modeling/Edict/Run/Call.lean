import Edict.Run.Basic

/-!
# Calls

A call hands its arguments over unevaluated, as computations: most functions evaluate them from
left to right, but `APPEND` changes the place that its first argument is, and evaluates its second
argument before the indices on the way to that place.
-/

namespace Edict

/-- An argument of a call. -/
structure Argument where
  /-- Its value. -/
  value : Run Value
  /-- The place that it is, if it is a reference: a name and the keys of a path. -/
  place? : Option (String × Run (List Key))

namespace Builtin

/-- Pushes the value of `item` onto the list at the place `target`. -/
def push (target item : Argument) : Run Unit := do
  match target.place? with
  | some (root, path) => do
      let v ← item.value
      let keys ← path
      Run.update root (Value.append v keys)
  | none => throw (.mismatch (.builtin .append) .referenceToList .expression)

/-- Calls the function of a name.  An unknown name and a wrong number of arguments are noticed
before any argument is evaluated. -/
def call (name : String) (args : List Argument) : Run Value := do
  match ofName? name with
  | none => throw (.unknownFunction name)
  | some f => do
      Run.ofExcept (f.checkArity args.length)
      match f, args with
      | .max, args => do
          let vs ← Run.all (args.map Argument.value)
          Run.ofExcept (extreme .max .gt vs)
      | .min, args => do
          let vs ← Run.all (args.map Argument.value)
          Run.ofExcept (extreme .min .lt vs)
      | .abs, [arg] => do
          let v ← arg.value
          Run.ofExcept (onNumber .abs Float.abs v)
      | .ceil, [arg] => do
          let v ← arg.value
          Run.ofExcept (onNumber .ceil Number.ceil v)
      | .floor, [arg] => do
          let v ← arg.value
          Run.ofExcept (onNumber .floor Number.floor v)
      | .log, [arg] => do
          let v ← arg.value
          Run.log v
          return .absent
      | .append, [target, item] => do
          push target item
          return .absent
      | .getNode, [arg] => do
          let v ← arg.value
          Run.domainObject .getNode Model.node? v
      | .getLink, [arg] => do
          let v ← arg.value
          Run.domainObject .getLink Model.link? v
      | _, _ => throw (.unknownFunction name)

end Builtin

end Edict

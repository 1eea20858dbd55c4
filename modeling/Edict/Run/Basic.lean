import Edict.Context

/-!
# Computations

A computation (`Run`) takes a context to a result or a fault, and to the context that it leaves;
what was done before a fault stays done.  A computation may also have no end: it is then `none` on
that context.  This file has the steps that programs are made of: reading and changing variables,
logging, loops.

Every loop has a loop slot of its own, which is put back however the loop ends (`Run.ownLoop`).  A
counted loop (`Run.count`) steps its index by one for as long as it is below the limit.  Nothing
else bounds it, and `2 ^ 53` is its own successor among the floating-point numbers, so a loop whose
limit is larger ends only by a fault of its body.
-/

namespace Edict

/-- A computation against a context: it may end in a fault, and it may have no end. -/
abbrev Run (α : Type) := ExceptT Fault (StateT Context Option) α

namespace Run

/-- The result of a computation that does not look at the context. -/
def ofExcept {α : Type} : Except Fault α → Run α
  | .ok a => pure a
  | .error f => throw f

/-- Computations one after the other. -/
def all {α : Type} : List (Run α) → Run (List α)
  | [] => return []
  | m :: ms => do
      let a ← m
      let as ← all ms
      return a :: as

/-! ## Names -/

/-- The value of a name. -/
def lookup (name : String) : Run Value := do
  match (← get).lookup name with
  | some v => return v
  | none => throw (.unbound name)

/-- Gives a name a value. -/
def bind (name : String) (v : Value) : Run Unit := modify (·.bind name v)

/-- Changes the value of a name that has one. -/
def update (name : String) (change : Value → Except Fault Value) : Run Unit := do
  let old ← lookup name
  let new ← ofExcept (change old)
  bind name new

/-- Reads along a path from a name. -/
def readPath (root : String) (keys : List Key) : Run Value := do
  let v ← lookup root
  ofExcept (Value.read keys v)

/-- Assigns at a path from a name.  Only an assignment by `=` to the name itself does not need a
value that is there already. -/
def store (root : String) (keys : List Key) (op : AssignOp) (v : Value) : Run Unit :=
  match keys.getLast? with
  | some last => update root (Value.assign op v keys.dropLast last)
  | none =>
      match op.arith? with
      | none => bind root v
      | some arithmetic => update root (Value.arith arithmetic · v)

/-! ## The host -/

/-- Sends a value to the log. -/
def log (v : Value) : Run Unit := modify fun c => { c with log := c.log.send v }

/-- The object that the model has for an id, as `f` asks for it; `absent` if it has none. -/
def domainObject (f : Builtin) (find : Model → Value → Option Value) (id : Value) : Run Value := do
  match (← get).model with
  | some m => return (find m id).getD .absent
  | none => throw (.missingModel f)

/-! ## Loops -/

/-- Sets the loop slot. -/
def setLoop (v : Value) : Run Unit := modify fun c => { c with loop := some v }

/-- Runs a computation with an empty loop slot and puts the slot back afterwards, whatever the
outcome. -/
def ownLoop {α : Type} (m : Run α) : Run α := fun c =>
  match m { c with loop := none } with
  | some (result, after) => some (result, { after with loop := c.loop })
  | none => none

/-- Runs a loop body once per value. -/
def forEach (body : Run Unit) : List Value → Run Unit
  | [] => pure ()
  | v :: rest => do
      setLoop v
      body
      forEach body rest

/-- Runs a loop body for `index`, `index + 1`, … as long as they are below `limit`. -/
def countUp (body : Run Unit) (limit index : Float) (c : Context) :
    Option (Except Fault Unit × Context) :=
  if index < limit then
    match body { c with loop := some (.number index) } with
    | some (.ok _, after) => body |>.countUp limit (index + 1) after
    | some (.error f, after) => some (.error f, after)
    | none => none
  else some (.ok (), c)
partial_fixpoint

/-- Runs a loop body for `0`, `1`, … below `limit`; not at all if `limit` is infinite or NaN. -/
def count (body : Run Unit) (limit : Float) : Run Unit :=
  if limit.isFinite && 0 < limit then ownLoop (countUp body limit 0) else pure ()

end Run

end Edict

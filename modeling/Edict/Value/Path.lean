import Edict.Value.Operation

/-!
# Reading and writing inside values

A path is a list of resolved keys.  `Value.read` follows one to the value at its end; `Value.assign`
changes what is there, and `Value.append` pushes onto the list that is there.  Writing is pure: the
result is the whole outer value with one place changed.

Reading a field that a map does not have gives `absent`, but a write does not pass through a
missing field: it may only add one at the end of its path.  In the same way a list grows only by an
assignment to the position just behind its last item.
-/

namespace Edict

/-! ## Keys of maps and positions in lists -/

namespace Key

/-- The map key that a step selects: numbers select the entry named by their text. -/
def mapKey : Key → Except Fault String
  | .field name => .ok name
  | .index (.text s) => .ok s
  | .index (.number x) => .ok (Number.text x)
  | .index v => .error (.wrongKind .mapKey (.kinds .string [.number]) v)

/-- The position that a step selects in a list of which `room` positions may be used. -/
def position (key : Key) (length room : Nat) : Except Fault Nat :=
  match key with
  | .index (.number x) =>
      match Number.toNat? x with
      | some n => if n < room then .ok n else .error (.indexOutOfRange x length)
      | none => .error (.indexOutOfRange x length)
  | .index v => .error (.wrongKind .listIndex (.kind .number) v)
  | .field name => .error (.mismatch (.step (.field name)) (.kind .map) (.kind .list))

/-- Neither a list nor a map stands where the step is taken. -/
def noContainer (key : Key) (v : Value) : Fault :=
  .wrongKind (.step key) (.kinds .map [.list]) v

end Key

namespace Value

/-- The item at a position, which must be one of the list's. -/
def itemAt (items : List Value) (n : Nat) : Value := items[n]?.getD .absent

/-! ## Reading -/

/-- One step of reading. -/
def readStep (key : Key) : Value → Except Fault Value
  | .map entries => return ((Entries.find? (← key.mapKey) entries).getD .absent)
  | .list items => return (itemAt items (← key.position items.length items.length))
  | v => .error (key.noContainer v)

/-- The value at the end of a path. -/
def read : List Key → Value → Except Fault Value
  | [], v => .ok v
  | key :: keys, v => do read keys (← readStep key v)

/-! ## Writing -/

/-- Changes the value that a step leads to, which must be there. -/
def modifyStep (key : Key) (change : Value → Except Fault Value) : Value → Except Fault Value
  | .map entries => do
      let name ← key.mapKey
      match Entries.find? name entries with
      | some old => return .map (Entries.insert name (← change old) entries)
      | none => throw (.mismatch (.step key) .existingField (.kind .absent))
  | .list items => do
      let n ← key.position items.length items.length
      return .list (items.set n (← change (itemAt items n)))
  | v => .error (key.noContainer v)

/-- Changes the value at the end of a path. -/
def modify (change : Value → Except Fault Value) : List Key → Value → Except Fault Value
  | [], v => change v
  | key :: keys, v => modifyStep key (modify change keys) v

/-- The value that an assignment stores where `old` is. -/
def assigned (op : AssignOp) (old new : Value) : Except Fault Value :=
  match op.arith? with
  | none => .ok new
  | some arithmetic => arith arithmetic old new

/-- The last step of an assignment.  A map takes a new field, the old value of which counts as
`absent`; `=` may extend a list by one item. -/
def assignStep (op : AssignOp) (new : Value) (key : Key) : Value → Except Fault Value
  | .map entries => do
      let name ← key.mapKey
      let v ← assigned op ((Entries.find? name entries).getD .absent) new
      return .map (Entries.insert name v entries)
  | .list items => do
      let room := if op = .set then items.length + 1 else items.length
      let n ← key.position items.length room
      if n = items.length then
        return .list (items ++ [new])
      else
        return .list (items.set n (← assigned op (itemAt items n) new))
  | v => .error (key.noContainer v)

/-- Assigns at the end of a path of at least one step. -/
def assign (op : AssignOp) (new : Value) (parents : List Key) (last : Key) :
    Value → Except Fault Value :=
  modify (assignStep op new last) parents

/-- Pushes onto the list that a value is. -/
def pushItem (item : Value) : Value → Except Fault Value
  | .list items => .ok (.list (items ++ [item]))
  | v => .error (.wrongKind (.builtin .append) (.kind .list) v)

/-- Pushes onto the list at the end of a path. -/
def append (item : Value) (keys : List Key) : Value → Except Fault Value :=
  modify (pushItem item) keys

end Value

end Edict

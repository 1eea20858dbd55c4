import Edict.Value.Path

/-!
# How operations on values end

The fault `unbound` is noticed where a name is read, and nowhere else.  Operations on values, paths
inside of values and the functions that only compute see no names: they may fail, but none of them
fails like that.

## Main definitions

* `Fault.Immediate`: the faults that an operation on values may have.
* `Ends`: a result, or an immediate fault.

## Main statements

* `Value.arith_ends`, `Value.compare_ends`: operators.
* `Builtin.checkArity_ends`, `Builtin.extreme_ends`, `Builtin.onNumber_ends`: functions.
* `Value.read_ends`, `Value.assign_ends`, `Value.append_ends`: reading, assigning and pushing along
  a path of resolved keys.
-/

namespace Edict

variable {α β : Type}

/-- A fault of the operation that raises it: any but a name without a value. -/
def Fault.Immediate : Fault → Prop
  | .unbound _ => False
  | _ => True

/-- A result, or a fault of the operation itself. -/
def Ends (r : Except Fault α) : Prop := ∀ f, r = .error f → f.Immediate

namespace Ends

/-- A result is one. -/
theorem ok (a : α) : Ends (.ok a) := nofun

/-- So is a failure with an immediate fault. -/
theorem error {f : Fault} (h : f.Immediate) : Ends (.error f : Except Fault α) := by
  intro g hg
  cases hg
  exact h

/-- A sequence ends if its parts do. -/
theorem bind {r : Except Fault α} {f : α → Except Fault β} (hr : Ends r) (hf : ∀ a, Ends (f a)) :
    Ends (r >>= f) := by
  cases r with
  | ok a => exact hf a
  | error e => exact error (hr e rfl)

/-- So does a result that is passed on. -/
theorem map {r : Except Fault α} (hr : Ends r) (f : α → β) : Ends (r >>= fun a => pure (f a)) :=
  hr.bind fun a => ok (f a)

end Ends

/-- A value of the wrong kind is noticed by the operation that is given it. -/
theorem Fault.wrongKind_immediate (site : Site) (wanted : Wanted) (given : Value) :
    (Fault.wrongKind site wanted given).Immediate := trivial

namespace Value

/-! ## Arithmetic and comparison -/

/-- Arithmetic gives a number or a text, or the operands do not fit. -/
theorem arith_ends (op : ArithOp) (left right : Value) : Ends (arith op left right) := by
  unfold arith
  split <;> first | exact Ends.ok _ | exact Ends.error trivial

/-- Two values have an order, or cannot be compared. -/
theorem ordering_ends (site : Site) (left right : Value) : Ends (ordering site left right) := by
  unfold ordering
  split <;> first | exact Ends.ok _ | exact Ends.error trivial

/-- Membership is decided for texts, lists and maps; in nothing else can be searched. -/
theorem isIn_ends (needle hay : Value) : Ends (isIn needle hay) := by
  unfold isIn
  split
  · exact Ends.ok _
  · split <;> exact Ends.ok _
  · exact Ends.ok _
  · exact Ends.error trivial

/-- Equality is decided for all values; the other comparisons may refuse their operands. -/
theorem compare_ends (op : CompareOp) (left right : Value) : Ends (compare op left right) := by
  cases op with
  | eq => exact Ends.ok _
  | notEq => exact Ends.ok _
  | isIn => exact isIn_ends left right
  | _ => exact (ordering_ends _ left right).map _

end Value

/-! ## Functions that only compute -/

namespace Builtin

/-- A wrong number of arguments is noticed by the call. -/
theorem checkArity_ends (f : Builtin) (found : Nat) : Ends (f.checkArity found) := by
  unfold checkArity
  split
  · split <;> first | exact Ends.ok _ | exact Ends.error trivial
  · exact Ends.ok _

/-- The search for the extreme value stops where two values cannot be compared. -/
theorem extremeFrom_ends (f : Builtin) (wanted : Ordering) (best : Value) (vs : List Value) :
    Ends (extremeFrom f wanted best vs) := by
  induction vs generalizing best with
  | nil => exact Ends.ok best
  | cons v vs ih => exact (Value.ordering_ends _ v best).bind fun _ => ih _

/-- So do `MAX` and `MIN`. -/
theorem extreme_ends (f : Builtin) (wanted : Ordering) (vs : List Value) :
    Ends (extreme f wanted vs) := by
  cases vs with
  | nil => exact Ends.ok _
  | cons v vs => exact extremeFrom_ends f wanted v vs

/-- The functions of a number refuse whatever is none. -/
theorem onNumber_ends (f : Builtin) (g : Float → Float) (v : Value) : Ends (onNumber f g v) := by
  unfold onNumber
  split <;> first | exact Ends.ok _ | exact Ends.error trivial

end Builtin

/-! ## Paths -/

/-- A key selects an entry of a map, or is none. -/
theorem Key.mapKey_ends (key : Key) : Ends key.mapKey := by
  unfold mapKey
  split <;> first | exact Ends.ok _ | exact Ends.error trivial

/-- A key selects a position in a list, or is none, or is out of bounds. -/
theorem Key.position_ends (key : Key) (length room : Nat) : Ends (key.position length room) := by
  unfold position
  split
  · split
    · split <;> first | exact Ends.ok _ | exact Ends.error trivial
    · exact Ends.error trivial
  · exact Ends.error trivial
  · exact Ends.error trivial

namespace Value

/-- A step of a path leads into a map or a list, or nowhere. -/
theorem readStep_ends (key : Key) (v : Value) : Ends (readStep key v) := by
  unfold readStep
  split
  · exact key.mapKey_ends.map _
  · exact (key.position_ends _ _).map _
  · exact Ends.error trivial

/-- What is read along a path is there, or a step of the path fails. -/
theorem read_ends (keys : List Key) (v : Value) : Ends (read keys v) := by
  induction keys generalizing v with
  | nil => exact Ends.ok v
  | cons key keys ih => exact (readStep_ends key v).bind ih

/-- A change behind a step ends if it does by itself. -/
theorem modifyStep_ends {change : Value → Except Fault Value} (h : ∀ v, Ends (change v)) (key : Key)
    (v : Value) : Ends (modifyStep key change v) := by
  unfold modifyStep
  split
  · refine key.mapKey_ends.bind fun name => ?_
    split
    · exact (h _).map _
    · exact Ends.error trivial
  · exact (key.position_ends _ _).bind fun n => (h _).map _
  · exact Ends.error trivial

/-- A change at the end of a path ends if it does by itself. -/
theorem modify_ends {change : Value → Except Fault Value} (h : ∀ v, Ends (change v))
    (keys : List Key) (v : Value) : Ends (modify change keys v) := by
  induction keys generalizing v with
  | nil => exact h v
  | cons key keys ih => exact modifyStep_ends ih key v

/-- The new value at a place is the assigned one, or what arithmetic makes of the old one. -/
theorem assigned_ends (op : AssignOp) (old new : Value) : Ends (assigned op old new) := by
  unfold assigned
  split
  · exact Ends.ok new
  · exact arith_ends _ old new

/-- The last step of an assignment may also fill the place behind the end of a list. -/
theorem assignStep_ends (op : AssignOp) (new : Value) (key : Key) (v : Value) :
    Ends (assignStep op new key v) := by
  unfold assignStep
  split
  · exact key.mapKey_ends.bind fun name => (assigned_ends op _ new).map _
  · refine (key.position_ends _ _).bind fun n => ?_
    split
    · exact Ends.ok _
    · exact (assigned_ends op _ new).map _
  · exact Ends.error trivial

/-- An assignment along a path ends. -/
theorem assign_ends (op : AssignOp) (new : Value) (parents : List Key) (last : Key) (v : Value) :
    Ends (assign op new parents last v) :=
  modify_ends (assignStep_ends op new last) parents v

/-- So does pushing an item onto the list at the end of a path. -/
theorem append_ends (item : Value) (keys : List Key) (v : Value) : Ends (append item keys v) := by
  refine modify_ends (fun v => ?_) keys v
  unfold pushItem
  split <;> first | exact Ends.ok _ | exact Ends.error trivial

end Value

end Edict

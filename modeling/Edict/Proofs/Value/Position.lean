import Edict.Proofs.Number.Fraction
import Edict.Proofs.Value.Slot

/-!
# Positions in lists

An index is a position of a list if its value is a natural number that is small enough
(`Key.position_of_is`); every other key is refused (`Key.position_of_not_is`).  A machine, which
asks doubles for fraction and sign and casts them, comes to the same for each list that it can hold
(`Key.machinePosition_eq`).

Behind the check, items are looked up and replaced without another one.  Here they are looked up in
such a way that nothing at all comes out if an item is not there (`Strict`); something always does
(`Strict.read_eq`, `Strict.assign_eq`, `Strict.append_eq`).

## Main definitions

* `Key.Is`: the exact value of a key is a natural number.
* `Key.machinePosition`: the check as a machine makes it.
* `Strict`: reading and writing with accesses that may miss.
* `Value.ListStep`: everything that is said of a key and a list.

## Main statements

* `Key.machinePosition_eq`: the two checks agree on every key, for fewer than `2 ^ 64` positions.
* `Value.listStep`: which keys are positions of a list for reading, for passing through and for each
  form of assignment, and how the others are refused.
* `Value.positions_exact`: in addition, no access of reading, writing or appending along a path
  misses.
-/

namespace Edict

/-! ## The check of a position -/

namespace Key

/-- The key is an index, and its value is that natural number. -/
def Is (key : Key) (n : Nat) : Prop :=
  ∃ x, key = .index (.number x) ∧ Number.value? x = some (n : ℚ)

/-- Why a key is no position of a list. -/
def refusal (length : Nat) : Key → Fault
  | .index (.number x) => .indexOutOfRange x length
  | .index v => .wrongKind .listIndex (.kind .number) v
  | .field name => .mismatch (.step (.field name)) (.kind .map) (.kind .list)

/-- The check of a position by doubles and machine integers. -/
def machinePosition (key : Key) (length room : Nat) : Except Fault Nat :=
  match key with
  | .index (.number x) =>
      if Number.fract x != 0 || x < 0 then .error (.indexOutOfRange x length)
      else
        let position := x.toUInt64.toNat
        if position < room then .ok position else .error (.indexOutOfRange x length)
  | .index v => .error (.wrongKind .listIndex (.kind .number) v)
  | .field name => .error (.mismatch (.step (.field name)) (.kind .map) (.kind .list))

variable {key : Key} {length room n : Nat}

/-- A natural number is found to be one. -/
theorem is_iff : key.Is n ↔ key.index? = some n := by
  unfold Is index?
  split
  · rename_i x
    rw [Number.toNat?_eq_some_iff]
    exact ⟨fun ⟨_, rfl, h⟩ => h, fun h => ⟨x, rfl, h⟩⟩
  · rename_i hother
    exact iff_of_false (fun ⟨x, hx, _⟩ => hother x hx) nofun

/-- A natural number that is small enough is a position. -/
theorem position_of_is (h : key.Is n) (hn : n < room) : key.position length room = .ok n :=
  position_eq_ok_iff.mpr ⟨is_iff.mp h, hn⟩

/-- A key is a position or is refused. -/
theorem position_eq (key : Key) (length room : Nat) :
    key.position length room =
      match key.index? with
      | some n => if n < room then .ok n else .error (key.refusal length)
      | none => .error (key.refusal length) := by
  rcases key with name | _ | _ | _ | _ | _ | _ <;> rfl

/-- Every other key is refused. -/
theorem position_of_not_is (h : ∀ n < room, ¬key.Is n) :
    key.position length room = .error (key.refusal length) := by
  rw [position_eq]
  split
  · rename_i n hn
    exact if_neg fun hlt => h n hlt (is_iff.mpr hn)
  · rfl

/-- A list that a machine can hold has the same positions for it. -/
theorem machinePosition_eq (key : Key) (length : Nat) (h : room < 2 ^ 64) :
    key.machinePosition length room = key.position length room := by
  have hnumber (x : Float) : (Key.index (.number x)).machinePosition length room =
      (Key.index (.number x)).position length room := by
    rw [position_eq, machinePosition, index?, refusal]
    by_cases htest : (Number.fract x == 0) = true ∧ ¬x < 0
    · obtain ⟨n, hn⟩ := (Number.fract_test_iff x).mp htest
      -- a number that is cast to a smaller one is not below any length
      have hcast : x.toUInt64.toNat < room ↔ n < room := by
        rw [Number.toNat_toUInt64 hn]
        omega
      rw [if_neg (by simpa [bne] using htest), hn]
      by_cases hlt : n < room
      · have hsame : x.toUInt64.toNat = n := by
          rw [Number.toNat_toUInt64 hn]
          omega
        simp only [hsame, if_pos hlt]
      · simp only [if_neg hlt, if_neg (mt hcast.mp hlt)]
    · have hnone : Number.toNat? x = none :=
        Option.eq_none_iff_forall_ne_some.mpr fun n hn =>
          htest ((Number.fract_test_iff x).mpr ⟨n, hn⟩)
      rw [if_pos (by simpa [bne, or_iff_not_imp_left] using htest), hnone]
  rcases key with name | x | _ | _ | _ | _ | _
  all_goals first | rfl | exact hnumber _

end Key

/-! ## Accesses to items -/

namespace Strict

/-- What comes out of an access to a value: nothing if an item is asked for that is not there. -/
abbrev Access (α : Type) := ExceptT Fault Option α

/-- A result or a fault without an access. -/
def ofExcept {α : Type} (o : Except Fault α) : Access α := ExceptT.mk (some o)

/-- The item at a position. -/
def item (items : List Value) (n : Nat) : Access Value := ExceptT.mk (items[n]?.map .ok)

/-- The list with another item at a position. -/
def replace (items : List Value) (n : Nat) (v : Value) : Access Value :=
  ExceptT.mk (if n < items.length then some (.ok (.list (items.set n v))) else none)

/-- One step of reading. -/
def readStep (key : Key) : Value → Access Value
  | .map entries => return ((Entries.find? (← ofExcept key.mapKey) entries).getD .absent)
  | .list items => do
      let n ← ofExcept (key.position items.length items.length)
      item items n
  | v => throw (key.noContainer v)

/-- The value at the end of a path. -/
def read : List Key → Value → Access Value
  | [], v => return v
  | key :: keys, v => do read keys (← readStep key v)

/-- Changes the value that a step leads to. -/
def modifyStep (key : Key) (change : Value → Access Value) : Value → Access Value
  | .map entries => do
      let name ← ofExcept key.mapKey
      match Entries.find? name entries with
      | some old => return .map (Entries.insert name (← change old) entries)
      | none => throw (.mismatch (.step key) .existingField (.kind .absent))
  | .list items => do
      let n ← ofExcept (key.position items.length items.length)
      let old ← item items n
      let new ← change old
      replace items n new
  | v => throw (key.noContainer v)

/-- Changes the value at the end of a path. -/
def modify (change : Value → Access Value) : List Key → Value → Access Value
  | [], v => change v
  | key :: keys, v => modifyStep key (modify change keys) v

/-- The last step of an assignment. -/
def assignStep (op : AssignOp) (new : Value) (key : Key) : Value → Access Value
  | .map entries => do
      let name ← ofExcept key.mapKey
      let v ← ofExcept (Value.assigned op ((Entries.find? name entries).getD .absent) new)
      return .map (Entries.insert name v entries)
  | .list items => do
      let room := if op = .set then items.length + 1 else items.length
      let n ← ofExcept (key.position items.length room)
      if n = items.length then
        return .list (items ++ [new])
      else
        let old ← item items n
        let v ← ofExcept (Value.assigned op old new)
        replace items n v
  | v => throw (key.noContainer v)

/-- Assigns at the end of a path. -/
def assign (op : AssignOp) (new : Value) (parents : List Key) (last : Key) : Value → Access Value :=
  modify (assignStep op new last) parents

/-- Pushes onto the list at the end of a path. -/
def append (v : Value) (keys : List Key) : Value → Access Value :=
  modify (fun old => ofExcept (Value.pushItem v old)) keys

section

variable {α β : Type} {items : List Value} {n : Nat}

/-- Computations without accesses, one after the other. -/
theorem ofExcept_bind (o : Except Fault α) (f : α → Except Fault β) :
    ofExcept (o >>= f) = ofExcept o >>= fun a => ofExcept (f a) := by
  cases o <;> rfl

/-- Within bounds an item is found. -/
theorem item_eq (h : n < items.length) : item items n = ofExcept (.ok (Value.itemAt items n)) := by
  have hitem : items[n]? = some (Value.itemAt items n) := by simp [Value.itemAt, h]
  rw [item, hitem]
  rfl

/-- Within bounds an item is replaced by what is made of it. -/
theorem item_bind_replace (h : n < items.length) {f : Value → Access Value}
    {g : Value → Except Fault Value} (hfg : ∀ v, f v = ofExcept (g v)) :
    (do replace items n (← f (← item items n))) =
      ofExcept (do return .list (items.set n (← g (Value.itemAt items n)))) := by
  have hreplace (v : Value) : replace items n v = ofExcept (.ok (.list (items.set n v))) := by
    rw [replace, if_pos h]
    rfl
  rw [item_eq h]
  show (f (Value.itemAt items n) >>= fun v => replace items n v) = _
  rw [hfg, ofExcept_bind]
  exact bind_congr hreplace

/-- What is done with a position only matters within bounds. -/
theorem position_bind_congr {key : Key} {length room : Nat} {f : Nat → Access α}
    {g : Nat → Except Fault α} (h : ∀ n < room, f n = ofExcept (g n)) :
    (ofExcept (key.position length room) >>= f) = ofExcept (key.position length room >>= g) := by
  rw [ofExcept_bind]
  rcases hposition : key.position length room with e | n
  · rfl
  · exact h n (Key.position_eq_ok_iff.mp hposition).2

end

/-- A step of reading finds the item that it looks up. -/
theorem readStep_eq (key : Key) (v : Value) : readStep key v = ofExcept (Value.readStep key v) := by
  cases v with
  | map entries => exact (ofExcept_bind _ _).symm
  | list items => exact position_bind_congr fun n hn => item_eq hn
  | _ => rfl

/-- Reading along a path looks up no item that is not there. -/
theorem read_eq (keys : List Key) (v : Value) : read keys v = ofExcept (Value.read keys v) := by
  induction keys generalizing v with
  | nil => rfl
  | cons key keys ih =>
      rw [read, Value.read, readStep_eq, ofExcept_bind]
      exact bind_congr fun w => ih w

/-- A step of writing finds the item that it looks up and replaces. -/
theorem modifyStep_eq {change : Value → Access Value} {change' : Value → Except Fault Value}
    (h : ∀ v, change v = ofExcept (change' v)) (key : Key) (v : Value) :
    modifyStep key change v = ofExcept (Value.modifyStep key change' v) := by
  cases v with
  | map entries =>
      refine Eq.trans (bind_congr fun name => ?_) (ofExcept_bind _ _).symm
      rcases hfound : Entries.find? name entries with _ | old
      · rfl
      · dsimp only
        rw [h, ofExcept_bind]
        rfl
  | list items => exact position_bind_congr fun n hn => item_bind_replace hn h
  | _ => rfl

/-- Writing along a path looks up and replaces no item that is not there, if what is done at its end
does not. -/
theorem modify_eq {change : Value → Access Value} {change' : Value → Except Fault Value}
    (h : ∀ v, change v = ofExcept (change' v)) (keys : List Key) (v : Value) :
    modify change keys v = ofExcept (Value.modify change' keys v) := by
  induction keys generalizing v with
  | nil => exact h v
  | cons key keys ih => exact modifyStep_eq ih key v

/-- The last step of an assignment finds the item that it looks up and replaces. -/
theorem assignStep_eq (op : AssignOp) (new : Value) (key : Key) (v : Value) :
    assignStep op new key v = ofExcept (Value.assignStep op new key v) := by
  cases v with
  | map entries =>
      refine Eq.trans (bind_congr fun name => ?_) (ofExcept_bind _ _).symm
      exact (ofExcept_bind _ _).symm
  | list items =>
      refine position_bind_congr fun n hn => ?_
      split_ifs with hend
      · rfl
      · have hlt : n < items.length := by
          split_ifs at hn <;> omega
        exact item_bind_replace hlt fun _ => rfl
  | _ => rfl

/-- An assignment looks up and replaces no item that is not there. -/
theorem assign_eq (op : AssignOp) (new : Value) (parents : List Key) (last : Key) (v : Value) :
    assign op new parents last v = ofExcept (Value.assign op new parents last v) :=
  modify_eq (assignStep_eq op new last) parents v

/-- Nor does pushing onto a list. -/
theorem append_eq (item : Value) (keys : List Key) (v : Value) :
    append item keys v = ofExcept (Value.append item keys v) :=
  modify_eq (fun _ => rfl) keys v

end Strict

/-! ## Steps into a list -/

namespace Value

variable {items : List Value} {key : Key} {n : Nat}

/-- An item that is there. -/
theorem itemAt_of_lt (hn : n < items.length) : itemAt items n = items[n] := by
  simp [itemAt, hn]

/-- What a key does at a list. -/
structure ListStep (items : List Value) (key : Key) : Prop where
  /-- The number of an item leads to that item: to read it, to go on behind it, and to put what is
  assigned in its place. -/
  item : ∀ n (hn : n < items.length), key.Is n →
    readStep key (.list items) = .ok items[n] ∧
    (∀ change, modifyStep key change (.list items) =
      (change items[n]).map fun v => .list (items.set n v)) ∧
    ∀ op new, assignStep op new key (.list items) =
      (assigned op items[n] new).map fun v => .list (items.set n v)
  /-- The next number is where `=` adds an item. -/
  next : key.Is items.length →
    ∀ new, assignStep .set new key (.list items) = .ok (.list (items ++ [new]))
  /-- What is no number of an item is refused. -/
  refused : (∀ n < items.length, ¬key.Is n) →
    readStep key (.list items) = .error (key.refusal items.length) ∧
    (∀ change, modifyStep key change (.list items) = .error (key.refusal items.length)) ∧
    ∀ op new, op ≠ .set → assignStep op new key (.list items) = .error (key.refusal items.length)
  /-- What is not the next number either is refused by `=` as well. -/
  refusedBySet : (∀ n ≤ items.length, ¬key.Is n) →
    ∀ new, assignStep .set new key (.list items) = .error (key.refusal items.length)
  /-- A machine does the same, with each number of positions that it can count. -/
  machine : ∀ room < 2 ^ 64,
    key.machinePosition items.length room = key.position items.length room

/-- Every key does this at every list. -/
theorem listStep (items : List Value) (key : Key) : ListStep items key where
  item n hn hkey := by
    have hposition : key.position items.length items.length = .ok n := Key.position_of_is hkey hn
    refine ⟨?_, fun change => ?_, fun op new => ?_⟩
    · rw [readStep, hposition, ← itemAt_of_lt hn]
      rfl
    · rw [modifyStep, hposition, ← itemAt_of_lt hn]
      rfl
    · have hroom : n < if op = .set then items.length + 1 else items.length := by
        split_ifs <;> omega
      rw [assignStep, Key.position_of_is hkey hroom, ← itemAt_of_lt hn]
      exact if_neg hn.ne
  next hkey new := by
    rw [assignStep, Key.position_of_is hkey (by simp)]
    exact if_pos rfl
  refused h := by
    have hposition : key.position items.length items.length = _ := Key.position_of_not_is h
    refine ⟨?_, fun change => ?_, fun op new hop => ?_⟩
    · rw [readStep, hposition]
      rfl
    · rw [modifyStep, hposition]
      rfl
    · rw [assignStep, if_neg hop, hposition]
      rfl
  refusedBySet h new := by
    have hposition : key.position items.length (items.length + 1) = _ :=
      Key.position_of_not_is fun n hn => h n (Nat.le_of_lt_succ hn)
    rw [assignStep, if_pos rfl, hposition]
    rfl
  machine room hroom := Key.machinePosition_eq key items.length hroom

/-- Positions in lists are exact.  Numbers of items lead to these items, the next number is where
`=` adds one, and every other number is refused as out of range, with the length of the list; and
neither reading nor writing along a path ever looks up or replaces an item that is not there. -/
theorem positions_exact :
    (∀ items key, ListStep items key) ∧
    (∀ x length, (Key.index (.number x)).refusal length = .indexOutOfRange x length) ∧
    (∀ keys v, Strict.read keys v = Strict.ofExcept (read keys v)) ∧
    (∀ op new parents last v, Strict.assign op new parents last v =
      Strict.ofExcept (assign op new parents last v)) ∧
    ∀ item keys v, Strict.append item keys v = Strict.ofExcept (append item keys v) :=
  ⟨listStep, fun _ _ => rfl, Strict.read_eq, Strict.assign_eq, Strict.append_eq⟩

/-- The negative zero is the position of the first item; halves and NaN are none. -/
theorem positions_exact_zero :
    readStep (.index (.number (-0))) (.list [.bool true]) = .ok (.bool true) ∧
    readStep (.index (.number 0.5)) (.list [.bool true]) = .error (.indexOutOfRange 0.5 1) ∧
    readStep (.index (.number (0 / 0))) (.list [.bool true]) =
      .error (.indexOutOfRange (0 / 0) 1) := by
  have hrefused (x : Float) (hx : Number.toNat? x = none) (n : Nat) :
      ¬(Key.index (.number x)).Is n := fun h => by
    have hsome : Number.toNat? x = some n := Key.is_iff.mp h
    rw [hx] at hsome
    cases hsome
  obtain ⟨hstep, -⟩ := positions_exact
  have hzero : (Key.index (.number (-0))).Is 0 := Key.is_iff.mpr (by decide +kernel)
  refine ⟨((hstep [.bool true] _).item 0 Nat.one_pos hzero).1, ?_, ?_⟩
  · exact ((hstep [.bool true] _).refused fun n _ => hrefused _ (by decide +kernel) n).1
  · exact ((hstep [.bool true] _).refused fun n _ => hrefused _ (by decide +kernel) n).1

end Value

end Edict

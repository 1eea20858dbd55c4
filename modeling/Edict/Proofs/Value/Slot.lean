import Edict.Value.Path

/-!
# Places in containers

One step of a path, taken apart.  A key *selects* a slot of a container (`Key.slot?`): an entry of a
map, or a position in a list; which one depends on the container, since a number is the text of an
entry in a map and a position in a list.  What is done with the slot depends on the slot alone:

* it may hold a value (`Value.at?`), and reading shows one, `absent` for a missing entry
  (`Value.shown?`);
* an assignment by `=` may fill it (`Value.Admits`), and then it holds what was put there
  (`Value.put`).

The steps of reading and writing are said in these terms once (`readStep_eq_ok_iff`,
`modifyStep_eq_ok_iff`, `setStep_eq_ok_iff`, `arithStep_eq_ok_iff`), next to the laws of a single
slot.

## Main definitions

* `Slot`, `Key.slot?`: an entry or a position, and the one that a key selects in a container.
* `Value.at?`, `Value.shown?`, `Value.Admits`, `Value.put`: what is in a slot, what reading shows
  there, whether an assignment may fill it, and the container after that.

## Main statements

* `Value.at?_put`, `Value.at?_put_of_ne`, `Value.put_put`, `Value.put_of_at?`: the laws of one slot.
* The lemmas `Value.*Step_eq_ok_iff`: when each kind of step gets through, and with what result.
-/

namespace Edict

/-- A sequence succeeds if its parts do. -/
theorem bind_eq_ok_iff {ε α β : Type} {o : Except ε α} {f : α → Except ε β} {b : β} :
    (o >>= f) = .ok b ↔ ∃ a, o = .ok a ∧ f a = .ok b := by
  cases o with
  | error e => exact ⟨nofun, nofun⟩
  | ok a => exact ⟨fun h => ⟨a, rfl, h⟩, fun ⟨_, rfl, h⟩ => h⟩

/-! ## Slots -/

/-- A place in a container: an entry of a map or a position in a list. -/
inductive Slot where
  | entry (name : String)
  | item (position : Nat)
deriving DecidableEq

namespace Key

/-- The natural number that an index is. -/
def index? : Key → Option Nat
  | .index (.number x) => Number.toNat? x
  | _ => none

/-- The slot of a container that a key selects, whether or not there is anything in it. -/
def slot? (key : Key) : Value → Option Slot
  | .map _ => key.mapKey.toOption.map .entry
  | .list _ => key.index?.map .item
  | _ => none

variable {key : Key}

/-- A key is a usable position if it is a natural number within bounds. -/
theorem position_eq_ok_iff {length room n : Nat} :
    key.position length room = .ok n ↔ key.index? = some n ∧ n < room := by
  unfold position index?
  split
  · dsimp only
    split
    · rename_i x m hm
      by_cases hlt : m < room
      · simp only [hm, if_pos hlt, Except.ok.injEq, Option.some.injEq]
        exact ⟨fun h => ⟨h, h ▸ hlt⟩, And.left⟩
      · simp only [hm, if_neg hlt, Option.some.injEq, reduceCtorEq, false_iff]
        exact fun h => hlt (h.1 ▸ h.2)
    · rename_i hx
      simp [hx]
  · rename_i v hv
    cases v <;> simp at hv ⊢
  · simp

variable {α : Type} {b : α}

/-- What is done with the name of a map's entry is done with the slot that the key selects. -/
theorem mapKey_bind_eq_ok_iff (entries : List (String × Value)) {f : String → Except Fault α} :
    (key.mapKey >>= f) = .ok b ↔
      ∃ name, key.slot? (.map entries) = some (.entry name) ∧ f name = .ok b := by
  rw [bind_eq_ok_iff, slot?]
  cases key.mapKey <;> simp [Except.toOption]

/-- What is done with a position in a list is done with the slot that the key selects, if the
position may be used. -/
theorem position_bind_eq_ok_iff (items : List Value) {length room : Nat} {f : Nat → Except Fault α} :
    (key.position length room >>= f) = .ok b ↔
      ∃ n, key.slot? (.list items) = some (.item n) ∧ n < room ∧ f n = .ok b := by
  simp [bind_eq_ok_iff, position_eq_ok_iff, slot?, and_assoc]

end Key

namespace Value

/-- What a slot of the container holds. -/
def at? : Value → Slot → Option Value
  | .map entries, .entry name => Entries.find? name entries
  | .list items, .item n => items[n]?
  | _, _ => none

/-- What reading finds in a slot: what it holds, and `absent` in a missing entry. -/
def shown? : Value → Slot → Option Value
  | .map entries, .entry name => some ((Entries.find? name entries).getD .absent)
  | .list items, .item n => items[n]?
  | _, _ => none

/-- An assignment may fill the slot: every entry, and every position up to the one behind the last
item. -/
def Admits : Value → Slot → Prop
  | .map _, .entry _ => True
  | .list items, .item n => n ≤ items.length
  | _, _ => False

/-- The container with another value in a slot. -/
def put : Value → Slot → Value → Value
  | .map entries, .entry name, v => .map (Entries.insert name v entries)
  | .list items, .item n, v => .list (if n = items.length then items ++ [v] else items.set n v)
  | x, _, _ => x

/-- The slots of a list that hold something are its items. -/
theorem at?_item_iff {items : List Value} {n : Nat} {v : Value} :
    (list items).at? (.item n) = some v ↔ n < items.length ∧ itemAt items n = v := by
  simp only [at?, itemAt, List.getElem?_eq_some_iff]
  constructor
  · rintro ⟨hn, rfl⟩
    exact ⟨hn, by simp [hn]⟩
  · rintro ⟨hn, rfl⟩
    exact ⟨hn, by simp [hn]⟩

/-- An item of a list is replaced by another one. -/
theorem put_item_of_lt {items : List Value} {n : Nat} (h : n < items.length) (v : Value) :
    (list items).put (.item n) v = .list (items.set n v) :=
  congrArg list (if_neg (Nat.ne_of_lt h))

/-! ## Laws of a single slot -/

section laws

variable {s t : Slot} {x v : Value}

/-- Reading finds what a slot holds. -/
theorem shown?_of_at? (h : x.at? s = some v) : x.shown? s = some v := by
  cases x <;> cases s <;> simp_all [at?, shown?]

/-- What reading finds in a slot is there, unless it stands for a missing entry. -/
theorem at?_of_shown? (h : x.shown? s = some v) (hv : v ≠ .absent) : x.at? s = some v := by
  unfold shown? at h
  split at h
  · rename_i entries name
    rcases hfound : Entries.find? name entries with _ | w
    · rw [hfound] at h
      exact absurd (Option.some.inj h).symm hv
    · rw [hfound] at h
      exact hfound.trans h
  · exact h
  · cases h

/-- Where something is shown, something else may be put. -/
theorem admits_of_shown? (h : x.shown? s = some v) : x.Admits s := by
  unfold shown? at h
  split at h
  · trivial
  · exact Nat.le_of_lt (List.getElem?_eq_some_iff.mp h).1
  · cases h

/-- What holds a value may be given another one. -/
theorem admits_of_at? (h : x.at? s = some v) : x.Admits s := admits_of_shown? (shown?_of_at? h)

/-- A container has the same slots after a value was put into one. -/
@[simp] theorem slot?_put (key : Key) (x : Value) (s : Slot) (v : Value) :
    key.slot? (x.put s v) = key.slot? x := by
  unfold put
  split <;> rfl

/-- What was put into a slot is there. -/
theorem at?_put (v : Value) (h : x.Admits s) : (x.put s v).at? s = some v := by
  unfold Admits at h
  split at h
  · simp [put, at?]
  · rename_i items n
    by_cases hn : n = items.length
    · simp [put, at?, hn]
    · simp [put, at?, hn, Nat.lt_of_le_of_ne h hn]
  · exact h.elim

/-- The other positions of a list hold what they held. -/
theorem getElem?_put_of_ne {items : List Value} {n m : Nat} (h : n ≠ m) (v : Value) :
    (if n = items.length then items ++ [v] else items.set n v)[m]? = items[m]? := by
  by_cases hn : n = items.length
  · rw [if_pos hn, List.getElem?_append]
    by_cases hm : m < items.length
    · rw [if_pos hm]
    · have hlen : items.length < m := Nat.lt_of_le_of_ne (Nat.not_lt.mp hm) (hn ▸ h)
      rw [if_neg hm, List.getElem?_eq_none (Nat.le_of_lt hlen), List.getElem?_eq_none]
      exact Nat.sub_pos_of_lt hlen
  · rw [if_neg hn, List.getElem?_set_ne h]

/-- The other slots hold what they held. -/
theorem at?_put_of_ne (h : s ≠ t) (x v : Value) : (x.put s v).at? t = x.at? t := by
  unfold put
  split
  · cases t with
    | entry other => exact Entries.find?_insert_of_ne (fun he => h (congrArg Slot.entry he)) _ _
    | item m => rfl
  · cases t with
    | entry other => rfl
    | item m => exact getElem?_put_of_ne (fun he => h (congrArg Slot.item he)) v
  · rfl

/-- Reading finds in the other slots what it found. -/
theorem shown?_put_of_ne (h : s ≠ t) (x v : Value) : (x.put s v).shown? t = x.shown? t := by
  have hat := at?_put_of_ne h x v
  unfold put at hat ⊢
  split
  · cases t with
    | entry other => exact congrArg (fun o => some (o.getD .absent)) hat
    | item m => rfl
  · cases t with
    | entry other => rfl
    | item m => exact hat
  · rfl

/-- Of two values put into a slot the second one stays. -/
@[simp] theorem put_put (x : Value) (s : Slot) (v w : Value) : (x.put s v).put s w = x.put s w := by
  cases x <;> cases s <;> simp only [put, Entries.insert_insert]
  rename_i items n
  by_cases hn : n = items.length <;> simp [hn]

/-- Putting into a slot what it holds changes nothing. -/
theorem put_of_at? (h : x.at? s = some v) : x.put s v = x := by
  unfold at? at h
  split at h
  · simp [put, Entries.insert_of_find? h]
  · rename_i items n
    obtain ⟨hn, rfl⟩ := List.getElem?_eq_some_iff.mp h
    simp [put, Nat.ne_of_lt hn]
  · cases h

/-- A slot that may be filled may be filled again. -/
theorem admits_put (v : Value) (h : x.Admits s) : (x.put s v).Admits s :=
  admits_of_at? (at?_put v h)

end laws

/-! ## Steps -/

section steps

variable {key : Key} {change : Value → Except Fault Value} {x y u v : Value}

/-- A step of reading finds what is shown in the slot that the key selects. -/
theorem readStep_eq_ok_iff :
    readStep key x = .ok u ↔ ∃ s, key.slot? x = some s ∧ x.shown? s = some u := by
  cases x with
  | map entries =>
      refine (Key.mapKey_bind_eq_ok_iff entries).trans ⟨?_, ?_⟩
      · rintro ⟨name, hs, h⟩
        exact ⟨.entry name, hs, congrArg some (Except.ok.inj h)⟩
      · rintro ⟨_ | _, hs, h⟩
        · exact ⟨_, hs, congrArg Except.ok (Option.some.inj h)⟩
        · cases h
  | list items =>
      refine (Key.position_bind_eq_ok_iff items).trans ⟨?_, ?_⟩
      · rintro ⟨n, hs, hn, h⟩
        exact ⟨.item n, hs, at?_item_iff.mpr ⟨hn, Except.ok.inj h⟩⟩
      · rintro ⟨_ | n, hs, h⟩
        · cases h
        · obtain ⟨hn, rfl⟩ := at?_item_iff.mp h
          exact ⟨n, hs, hn, rfl⟩
  | _ => simp [readStep, Key.slot?]

/-- A step of changing changes what the slot holds that the key selects. -/
theorem modifyStep_eq_ok_iff :
    modifyStep key change x = .ok y ↔
      ∃ s old new, key.slot? x = some s ∧ x.at? s = some old ∧ change old = .ok new ∧
        y = x.put s new := by
  cases x with
  | map entries =>
      refine (Key.mapKey_bind_eq_ok_iff entries).trans ⟨?_, ?_⟩
      · rintro ⟨name, hs, h⟩
        split at h
        · rename_i old hold
          obtain ⟨new, hnew, hy⟩ := bind_eq_ok_iff.mp h
          exact ⟨.entry name, old, new, hs, hold, hnew, (Except.ok.inj hy).symm⟩
        · cases h
      · rintro ⟨name | _, old, new, hs, hold, hnew, rfl⟩
        · have hfound : Entries.find? name entries = some old := hold
          refine ⟨name, hs, ?_⟩
          simp only [hfound]
          exact bind_eq_ok_iff.mpr ⟨new, hnew, rfl⟩
        · cases hold
  | list items =>
      refine (Key.position_bind_eq_ok_iff items).trans ⟨?_, ?_⟩
      · rintro ⟨n, hs, hn, h⟩
        obtain ⟨new, hnew, hy⟩ := bind_eq_ok_iff.mp h
        refine ⟨.item n, itemAt items n, new, hs, at?_item_iff.mpr ⟨hn, rfl⟩, hnew, ?_⟩
        rw [put_item_of_lt hn]
        exact (Except.ok.inj hy).symm
      · rintro ⟨_ | n, old, new, hs, hold, hnew, rfl⟩
        · cases hold
        · obtain ⟨hn, rfl⟩ := at?_item_iff.mp hold
          rw [put_item_of_lt hn]
          exact ⟨n, hs, hn, bind_eq_ok_iff.mpr ⟨new, hnew, rfl⟩⟩
  | _ => simp [modifyStep, Key.slot?]

/-- The last step of an assignment by `=` fills a slot that admits that. -/
theorem setStep_eq_ok_iff :
    assignStep .set v key x = .ok y ↔ ∃ s, key.slot? x = some s ∧ x.Admits s ∧ y = x.put s v := by
  cases x with
  | map entries =>
      refine (Key.mapKey_bind_eq_ok_iff entries).trans ⟨?_, ?_⟩
      · rintro ⟨name, hs, h⟩
        exact ⟨.entry name, hs, trivial, (Except.ok.inj h).symm⟩
      · rintro ⟨_ | _, hs, hadmits, rfl⟩
        · exact ⟨_, hs, rfl⟩
        · exact hadmits.elim
  | list items =>
      have hfill (n : Nat) :
          ((if n = items.length then return .list (items ++ [v])
            else return .list (items.set n (← assigned .set (itemAt items n) v)) :
              Except Fault Value)) = .ok ((Value.list items).put (.item n) v) := by
        by_cases hn : n = items.length
        · rw [if_pos hn]
          exact congrArg (Except.ok ∘ list) (if_pos hn).symm
        · rw [if_neg hn]
          exact congrArg (Except.ok ∘ list) (if_neg hn).symm
      refine (Key.position_bind_eq_ok_iff items).trans ⟨?_, ?_⟩
      · rintro ⟨n, hs, hn, h⟩
        refine ⟨.item n, hs, Nat.le_of_lt_succ hn, ?_⟩
        exact (Except.ok.inj ((hfill n).symm.trans h)).symm
      · rintro ⟨_ | n, hs, hn, rfl⟩
        · exact hn.elim
        · exact ⟨n, hs, Nat.lt_succ_of_le hn, hfill n⟩
  | _ => simp [assignStep, Key.slot?]

variable {op : AssignOp} {a : ArithOp}

/-- The last step of an assignment by `+=` or `-=` combines what is shown in a slot with the new
value. -/
theorem arithStep_eq_ok_iff (hop : op.arith? = some a) :
    assignStep op v key x = .ok y ↔
      ∃ s old new, key.slot? x = some s ∧ x.shown? s = some old ∧ arith a old v = .ok new ∧
        y = x.put s new := by
  have hassigned (old : Value) : assigned op old v = arith a old v := by simp [assigned, hop]
  cases x with
  | map entries =>
      refine (Key.mapKey_bind_eq_ok_iff entries).trans ⟨?_, ?_⟩
      · rintro ⟨name, hs, h⟩
        obtain ⟨new, hnew, hy⟩ := bind_eq_ok_iff.mp h
        exact ⟨.entry name, _, new, hs, rfl, (hassigned _).symm.trans hnew, (Except.ok.inj hy).symm⟩
      · rintro ⟨_ | _, old, new, hs, hold, hnew, rfl⟩
        · obtain rfl := Option.some.inj hold
          exact ⟨_, hs, bind_eq_ok_iff.mpr ⟨new, (hassigned _).trans hnew, rfl⟩⟩
        · cases hold
  | list items =>
      have hroom : (if op = .set then items.length + 1 else items.length) = items.length := by
        refine if_neg ?_
        rintro rfl
        cases hop
      refine (Key.position_bind_eq_ok_iff items).trans ⟨?_, ?_⟩
      · rintro ⟨n, hs, hn, h⟩
        rw [hroom] at hn
        rw [if_neg (Nat.ne_of_lt hn)] at h
        obtain ⟨new, hnew, hy⟩ := bind_eq_ok_iff.mp h
        refine ⟨.item n, itemAt items n, new, hs, at?_item_iff.mpr ⟨hn, rfl⟩,
          (hassigned _).symm.trans hnew, ?_⟩
        rw [put_item_of_lt hn]
        exact (Except.ok.inj hy).symm
      · rintro ⟨_ | n, old, new, hs, hold, hnew, rfl⟩
        · cases hold
        · obtain ⟨hn, rfl⟩ := at?_item_iff.mp hold
          refine ⟨n, hs, hroom.symm ▸ hn, ?_⟩
          rw [if_neg (Nat.ne_of_lt hn), put_item_of_lt hn]
          exact bind_eq_ok_iff.mpr ⟨new, (hassigned _).trans hnew, rfl⟩
  | _ => simp [assignStep, Key.slot?]

end steps

end Value

end Edict

import Edict.Proofs.Value.Slot

/-!
# Paths as lenses

Reading along a path and assigning at its end by `=` go together as a lens does:

* what was assigned is read (`read_assign`);
* of two assignments at one place only the second one counts (`assign_assign`);
* assigning what is there already changes nothing (`assign_of_entry?`);
* what is read along a path that parts from it stays as it is (`read_assign_of_apart`).

Each law is an induction on the keys before the last one: the laws of a single slot at each step,
and at the end what an assignment does there.  In the same way the other assignments come down to
this one (`arithAssign_eq_ok_iff`).

## Main definitions

* `Value.entry?`: what stands at the end of a path, if it is an entry or an item that is there;
  unlike reading, it has no value for a missing field.
* `Value.Apart`: two paths that part in a value.

## Main statements

* `Value.read_assign`, `Value.assign_assign`, `Value.assign_of_entry?`,
  `Value.read_assign_of_apart`: the four laws above, for paths of any length.
* `Value.arithAssign_eq_ok_iff`: `+=` and `-=` read, calculate and assign.
-/

namespace Edict

namespace Value

variable {key : Key} {keys parents others : List Key} {last : Key} {u v x y : Value}

/-! ## Places at the end of a path -/

/-- What is at the end of a path, if every key selects something that is there. -/
def entry? : List Key → Value → Option Value
  | [], x => some x
  | key :: keys, x => do
      let s ← key.slot? x
      let child ← x.at? s
      entry? keys child

/-- The two paths part in the value: some step of the one and of the other select different slots of
one container, to which the same steps lead. -/
def Apart : List Key → List Key → Value → Prop
  | key :: keys, other :: others, x =>
      ∃ s t, key.slot? x = some s ∧ other.slot? x = some t ∧
        (s ≠ t ∨ s = t ∧ ∃ child, x.at? s = some child ∧ Apart keys others child)
  | _, _, _ => False

/-- A path that has ended parts from no other. -/
theorem not_apart_nil : ¬ Apart [] others x := by
  cases others <;> exact id

/-- Reading along a path reads along the rest of it in what the first key shows. -/
theorem read_cons_eq_ok_iff :
    read (key :: keys) x = .ok u ↔
      ∃ s child, key.slot? x = some s ∧ x.shown? s = some child ∧ read keys child = .ok u := by
  refine bind_eq_ok_iff.trans ⟨?_, ?_⟩
  · rintro ⟨child, hstep, hread⟩
    obtain ⟨s, hs, hshown⟩ := readStep_eq_ok_iff.mp hstep
    exact ⟨s, child, hs, hshown, hread⟩
  · rintro ⟨s, child, hs, hshown, hread⟩
    exact ⟨child, readStep_eq_ok_iff.mpr ⟨s, hs, hshown⟩, hread⟩

/-- Assigning behind a key assigns in what that key selects. -/
theorem assign_cons_eq_ok_iff {op : AssignOp} :
    assign op v (key :: parents) last x = .ok y ↔
      ∃ s old new, key.slot? x = some s ∧ x.at? s = some old ∧
        assign op v parents last old = .ok new ∧ y = x.put s new :=
  modifyStep_eq_ok_iff

/-- What is at the end of a path is read there. -/
theorem read_of_entry? (h : entry? keys x = some v) : read keys x = .ok v := by
  induction keys generalizing x with
  | nil => exact congrArg Except.ok (Option.some.inj h)
  | cons key keys ih =>
      obtain ⟨s, hs, h⟩ := Option.bind_eq_some_iff.mp h
      obtain ⟨child, hchild, h⟩ := Option.bind_eq_some_iff.mp h
      exact read_cons_eq_ok_iff.mpr ⟨s, child, hs, shown?_of_at? hchild, ih h⟩

/-! ## Paths through a slot that was filled -/

section put

variable {s t : Slot}

/-- What is read in a value is read behind the slot into which it was put. -/
theorem read_put (hs : key.slot? x = some s) (h : x.Admits s) (hread : read keys v = .ok u) :
    read (key :: keys) (x.put s v) = .ok u := by
  refine read_cons_eq_ok_iff.mpr ⟨s, v, ?_, shown?_of_at? (at?_put v h), hread⟩
  rw [slot?_put, hs]

/-- What is read behind another slot is still read there. -/
theorem read_put_of_ne (ht : key.slot? x = some t) (h : s ≠ t) (v : Value)
    (hread : read (key :: keys) x = .ok u) : read (key :: keys) (x.put s v) = .ok u := by
  obtain ⟨t', child, ht', hchild, hread⟩ := read_cons_eq_ok_iff.mp hread
  obtain rfl := Option.some.inj (ht.symm.trans ht')
  refine read_cons_eq_ok_iff.mpr ⟨t, child, ?_, ?_, hread⟩
  · rw [slot?_put, ht]
  · rw [shown?_put_of_ne h, hchild]

end put

/-! ## Laws -/

/-- What was assigned at the end of a path is read there. -/
theorem read_assign (h : assign .set v parents last x = .ok y) :
    read (parents ++ [last]) y = .ok v := by
  induction parents generalizing x y with
  | nil =>
      obtain ⟨s, hs, hadmits, rfl⟩ := setStep_eq_ok_iff.mp h
      exact read_put hs hadmits rfl
  | cons key parents ih =>
      obtain ⟨s, old, new, hs, hold, hnew, rfl⟩ := assign_cons_eq_ok_iff.mp h
      exact read_put hs (admits_of_at? hold) (ih hnew)

/-- After an assignment another one at the same place succeeds, and does what it would have done
without the first one. -/
theorem assign_assign (h : assign .set v parents last x = .ok y) (w : Value) :
    ∃ z, assign .set w parents last y = .ok z ∧ assign .set w parents last x = .ok z := by
  induction parents generalizing x y with
  | nil =>
      obtain ⟨s, hs, hadmits, rfl⟩ := setStep_eq_ok_iff.mp h
      refine ⟨x.put s w, setStep_eq_ok_iff.mpr ⟨s, ?_, admits_put v hadmits, ?_⟩,
        setStep_eq_ok_iff.mpr ⟨s, hs, hadmits, rfl⟩⟩
      · rw [slot?_put, hs]
      · rw [put_put]
  | cons key parents ih =>
      obtain ⟨s, old, new, hs, hold, hnew, rfl⟩ := assign_cons_eq_ok_iff.mp h
      obtain ⟨z, hagain, hdirect⟩ := ih hnew
      have hput := at?_put new (admits_of_at? hold)
      refine ⟨x.put s z, assign_cons_eq_ok_iff.mpr ⟨s, new, z, ?_, hput, hagain, ?_⟩,
        assign_cons_eq_ok_iff.mpr ⟨s, old, z, hs, hold, hdirect, rfl⟩⟩
      · rw [slot?_put, hs]
      · rw [put_put]

/-- An assignment leaves what is read along a path that parts from its own. -/
theorem read_assign_of_apart (h : assign .set v parents last x = .ok y)
    (hapart : Apart (parents ++ [last]) others x) (hread : read others x = .ok u) :
    read others y = .ok u := by
  induction parents generalizing x y others with
  | nil =>
      rcases others with _ | ⟨other, others⟩
      · exact hapart.elim
      obtain ⟨s, hs, -, rfl⟩ := setStep_eq_ok_iff.mp h
      obtain ⟨s', t, hs', ht, hpart⟩ := hapart
      obtain rfl := Option.some.inj (hs.symm.trans hs')
      rcases hpart with hst | ⟨-, child, -, hnil⟩
      · exact read_put_of_ne ht hst v hread
      · exact absurd hnil not_apart_nil
  | cons key parents ih =>
      rcases others with _ | ⟨other, others⟩
      · exact hapart.elim
      obtain ⟨s, old, new, hs, hold, hnew, rfl⟩ := assign_cons_eq_ok_iff.mp h
      obtain ⟨s', t, hs', ht, hpart⟩ := hapart
      obtain rfl := Option.some.inj (hs.symm.trans hs')
      rcases hpart with hst | ⟨rfl, child, hchild, hpart⟩
      · exact read_put_of_ne ht hst new hread
      · -- both paths go on in the same child
        obtain rfl := Option.some.inj (hold.symm.trans hchild)
        obtain ⟨t, child, ht', hshown, hread⟩ := read_cons_eq_ok_iff.mp hread
        obtain rfl := Option.some.inj (ht.symm.trans ht')
        obtain rfl := Option.some.inj ((shown?_of_at? hold).symm.trans hshown)
        exact read_put ht (admits_of_at? hold) (ih hnew hpart hread)

/-- Assigning what is at a place already changes nothing. -/
theorem assign_of_entry? (h : entry? (parents ++ [last]) x = some v) :
    assign .set v parents last x = .ok x := by
  induction parents generalizing x with
  | nil =>
      obtain ⟨s, hs, h⟩ := Option.bind_eq_some_iff.mp h
      obtain ⟨child, hchild, h⟩ := Option.bind_eq_some_iff.mp h
      obtain rfl : child = v := Option.some.inj h
      exact setStep_eq_ok_iff.mpr ⟨s, hs, admits_of_at? hchild, (put_of_at? hchild).symm⟩
  | cons key parents ih =>
      obtain ⟨s, hs, h⟩ := Option.bind_eq_some_iff.mp h
      obtain ⟨child, hchild, h⟩ := Option.bind_eq_some_iff.mp h
      exact assign_cons_eq_ok_iff.mpr ⟨s, child, child, hs, hchild, ih h, (put_of_at? hchild).symm⟩

/-! ## Compound assignments -/

/-- An assignment by `+=` or `-=` reads what is at its place, combines it with the new value, and
assigns the result by `=`. -/
theorem arithAssign_eq_ok_iff {op : AssignOp} {a : ArithOp} (hop : op.arith? = some a) :
    assign op v parents last x = .ok y ↔
      ∃ old new, read (parents ++ [last]) x = .ok old ∧ arith a old v = .ok new ∧
        assign .set new parents last x = .ok y := by
  induction parents generalizing x y with
  | nil =>
      refine (arithStep_eq_ok_iff hop).trans ⟨?_, ?_⟩
      · rintro ⟨s, old, new, hs, hold, hnew, rfl⟩
        exact ⟨old, new, read_cons_eq_ok_iff.mpr ⟨s, old, hs, hold, rfl⟩, hnew,
          setStep_eq_ok_iff.mpr ⟨s, hs, admits_of_shown? hold, rfl⟩⟩
      · rintro ⟨old, new, hread, hnew, hset⟩
        obtain ⟨s, child, hs, hchild, hread⟩ := read_cons_eq_ok_iff.mp hread
        obtain ⟨s', hs', -, rfl⟩ := setStep_eq_ok_iff.mp hset
        obtain rfl := Option.some.inj (hs.symm.trans hs')
        obtain rfl : child = old := Except.ok.inj hread
        exact ⟨s, child, new, hs, hchild, hnew, rfl⟩
  | cons key parents ih =>
      refine assign_cons_eq_ok_iff.trans ⟨?_, ?_⟩
      · rintro ⟨s, child, child', hs, hchild, hassign, rfl⟩
        obtain ⟨old, new, hread, hnew, hset⟩ := ih.mp hassign
        exact ⟨old, new, read_cons_eq_ok_iff.mpr ⟨s, child, hs, shown?_of_at? hchild, hread⟩, hnew,
          assign_cons_eq_ok_iff.mpr ⟨s, child, child', hs, hchild, hset, rfl⟩⟩
      · rintro ⟨old, new, hread, hnew, hset⟩
        obtain ⟨s, child, child', hs, hchild, hbelow, rfl⟩ := assign_cons_eq_ok_iff.mp hset
        obtain ⟨s', shown, hs', hshown, hread⟩ := read_cons_eq_ok_iff.mp hread
        obtain rfl := Option.some.inj (hs.symm.trans hs')
        obtain rfl := Option.some.inj ((shown?_of_at? hchild).symm.trans hshown)
        exact ⟨s, child, child', hs, hchild, ih.mpr ⟨old, new, hread, hnew, hbelow⟩, rfl⟩

end Value

end Edict

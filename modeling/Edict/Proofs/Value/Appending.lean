import Edict.Proofs.Value.Lens

/-!
# Two ways to make a list longer

Pushing onto the list at the end of a path changes that list; assigning to the position behind its
last item goes one step further and changes it there.  What the two make of the list is the same
(`Value.pushItem_list`, `Value.assignStep_end`), and then the whole values are the same, since a
change at the end of a path does no more than to assign its result there
(`Value.exists_assign_modify`).

## Main statements

* `Value.assignStep_end`: an assignment to the position behind the last item is a push.
* `Value.exists_assign_modify`: a change of what a path leads to is an assignment of its result; the
  path must lead to an entry or an item that is there.
-/

namespace Edict

/-- The number is the index behind the last item. -/
theorem Key.position_end {n : Float} {length : Nat} (hn : Number.toNat? n = some length) :
    (Key.index (.number n)).position length (length + 1) = .ok length :=
  position_eq_ok_iff.mpr ⟨hn, Nat.lt_succ_self length⟩

namespace Value

variable {last : Key} {keys parents : List Key} {items : List Value} {n : Float} {u x : Value}

/-! ## Longer lists -/

/-- Pushing onto a list. -/
theorem pushItem_list (v : Value) (items : List Value) :
    pushItem v (.list items) = .ok (.list (items ++ [v])) := rfl

/-- Assigning to the position behind the last item of a list. -/
theorem assignStep_end (hn : Number.toNat? n = some items.length) (v : Value) :
    assignStep .set v (.index (.number n)) (.list items) = .ok (.list (items ++ [v])) := by
  show ((Key.index (.number n)).position items.length (items.length + 1) >>= _) = _
  rw [Key.position_end hn]
  exact if_pos rfl

/-! ## Changes at the end of a path -/

/-- What is read along a path is at its end, unless nothing is there. -/
theorem entry?_of_read (h : read keys x = .ok u) (hu : u ≠ .absent) : entry? keys x = some u := by
  induction keys generalizing x with
  | nil => exact congrArg some (Except.ok.inj h)
  | cons key keys ih =>
      obtain ⟨s, child, hs, hshown, h⟩ := read_cons_eq_ok_iff.mp h
      have hchild : child ≠ .absent := by
        rintro rfl
        -- from a missing entry no path leads on
        cases keys with
        | nil => exact hu (Except.ok.inj h).symm
        | cons other keys => cases h
      have hat : x.at? s = some child := at?_of_shown? hshown hchild
      exact Option.bind_eq_some_iff.mpr ⟨s, hs, Option.bind_eq_some_iff.mpr ⟨child, hat, ih h⟩⟩

/-- A change of what is at the end of a path has the same result as an assignment of what the change
makes of it. -/
theorem exists_assign_modify (h : entry? (parents ++ [last]) x = some u) (w : Value) :
    ∃ y, assign .set w parents last x = .ok y ∧
      ∀ change, change u = .ok w → modify change (parents ++ [last]) x = .ok y := by
  induction parents generalizing x with
  | nil =>
      obtain ⟨s, hs, h⟩ := Option.bind_eq_some_iff.mp h
      obtain ⟨child, hchild, h⟩ := Option.bind_eq_some_iff.mp h
      obtain rfl : child = u := Option.some.inj h
      refine ⟨x.put s w, setStep_eq_ok_iff.mpr ⟨s, hs, admits_of_at? hchild, rfl⟩, ?_⟩
      exact fun change hw => modifyStep_eq_ok_iff.mpr ⟨s, child, w, hs, hchild, hw, rfl⟩
  | cons key parents ih =>
      obtain ⟨s, hs, h⟩ := Option.bind_eq_some_iff.mp h
      obtain ⟨child, hchild, h⟩ := Option.bind_eq_some_iff.mp h
      obtain ⟨y, hassign, hmodify⟩ := ih h
      refine ⟨x.put s y, assign_cons_eq_ok_iff.mpr ⟨s, child, y, hs, hchild, hassign, rfl⟩, ?_⟩
      exact fun change hw =>
        modifyStep_eq_ok_iff.mpr ⟨s, child, y, hs, hchild, hmodify change hw, rfl⟩

end Value

end Edict

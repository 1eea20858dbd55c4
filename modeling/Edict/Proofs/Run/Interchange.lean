import Edict.Proofs.Value.Alike
import Edict.Run.Basic

/-!
# Equal values as keys

A key of a map, a part that is looked for in a text, and the id of an object are texts; a position
in a list and an item of a list are not.  Equal values select the same position and are items of the
same lists.  Elsewhere they may stand for each other exactly if their zeros have the same signs: the
texts of the two zeros differ, though the zeros are equal.

The objects are those of tables in memory.  A host may have a model that tells any two values apart.

## Main definitions

* `Value.Interchangeable`: nothing depends on which of two values is taken as a key.
* `Value.InterchangeableInLists`: no list tells them apart.

## Main statements

* `Value.interchangeable_iff`: which equal values are interchangeable.
-/

namespace Edict

namespace Value

/-- Nothing depends on which of the two values is taken as an index on the way to a place, looked
for in a container, or asked for as an id. -/
structure Interchangeable (a b : Value) : Prop where
  read : ∀ root before after, Run.readPath root (before ++ .index a :: after) =
    Run.readPath root (before ++ .index b :: after)
  store : ∀ root before after op v, Run.store root (before ++ .index a :: after) op v =
    Run.store root (before ++ .index b :: after) op v
  push : ∀ root before after v, Run.update root (append v (before ++ .index a :: after)) =
    Run.update root (append v (before ++ .index b :: after))
  isIn : ∀ hay, isIn a hay = isIn b hay
  node : ∀ t : Tables, t.node? a = t.node? b
  link : ∀ t : Tables, t.link? a = t.link? b

/-- As an index and as an item, a list does not tell the two values apart. -/
structure InterchangeableInLists (a b : Value) : Prop where
  position : ∀ length room n,
    (Key.index a).position length room = .ok n ↔ (Key.index b).position length room = .ok n
  isIn : ∀ items, Value.isIn a (.list items) = Value.isIn b (.list items)

/-- A value stands for itself. -/
theorem Interchangeable.refl (a : Value) : Interchangeable a a where
  read _ _ _ := rfl
  store _ _ _ _ _ := rfl
  push _ _ _ _ := rfl
  isIn _ := rfl
  node _ := rfl
  link _ := rfl

/-- A table of one node finds it under both ids, so these have one text. -/
theorem Interchangeable.display_eq {a b : Value} (h : Interchangeable a b) :
    a.display = b.display := by
  have hnode := h.node ⟨[(a.display, .absent)], []⟩
  simp only [Tables.node?, Entries.find?, if_true] at hnode
  by_contra hne
  rw [if_neg hne] at hnode
  cases hnode

/-- Values that are built alike are the same positions of every list. -/
theorem Alike.position_iff {a b : Value} (h : Alike a b) (length room n : Nat) :
    (Key.index a).position length room = .ok n ↔ (Key.index b).position length room = .ok n := by
  cases h with
  | @number x y h =>
      have hzero : Number.toNat? 0 = some 0 := by decide +kernel
      have hminus : Number.toNat? (-0) = some 0 := by decide +kernel
      have hcases : ∀ z m, Number.toNat? z = some m →
          ((Key.index (.number z)).position length room = .ok n ↔ m < room ∧ m = n) := by
        intro z m hm
        simp only [Key.position, hm]
        split_ifs with hlt <;> simp [hlt]
      rcases Number.eq_or_zeros h with rfl | ⟨rfl, rfl⟩ | ⟨rfl, rfl⟩
      · exact Iff.rfl
      · rw [hcases 0 0 hzero, hcases (-0) 0 hminus]
      · rw [hcases 0 0 hzero, hcases (-0) 0 hminus]
  | _ => exact iff_of_false nofun nofun

/-- Values that are built alike stand for one another in lists, whatever their zeros. -/
theorem Alike.interchangeableInLists {a b : Value} (h : Alike a b) : InterchangeableInLists a b where
  position := h.position_iff
  isIn items := by simp only [Value.isIn, memberOf, h.same_congr]

/-- Equal values may stand for each other exactly if their zeros have the same signs, and always as
positions in lists and as items of lists. -/
theorem interchangeable_iff {a b : Value} (h : a.same b = true) :
    (Interchangeable a b ↔ a.zeroSigns = b.zeroSigns) ∧ InterchangeableInLists a b := by
  have halike := alike_of_same h
  refine ⟨⟨fun hab => ?_, fun hsigns => ?_⟩, halike.interchangeableInLists⟩
  · exact congrArg zeroSigns (halike.eq_of_display_eq hab.display_eq)
  · obtain rfl := halike.eq_of_zeroSigns_eq hsigns
    exact .refl a

/-- A number that was computed, and the number that was written. -/
theorem interchangeable_three : (number (1 + 2)).same (number 3) = true ∧
    Interchangeable (number (1 + 2)) (number 3) := by
  have hsame : (number (1 + 2)).same (number 3) = true := by decide +kernel
  exact ⟨hsame, (interchangeable_iff hsame).1.mpr (by decide +kernel)⟩

/-- The two zeros are equal, but they are different keys of a map. -/
theorem not_interchangeable_zeros : (number 0).same (number (-0)) = true ∧
    isIn (number 0) (map [("0", number 1)]) = .ok true ∧
    isIn (number (-0)) (map [("0", number 1)]) = .ok false ∧
    ¬Interchangeable (number 0) (number (-0)) := by
  have hsame : (number 0).same (number (-0)) = true := by decide +kernel
  have hzero : Entries.contains (Number.text 0) [("0", number 1)] = true := by decide +kernel
  have hminus : Entries.contains (Number.text (-0)) [("0", number 1)] = false := by decide +kernel
  refine ⟨hsame, congrArg Except.ok hzero, congrArg Except.ok hminus, fun h => ?_⟩
  have heq := Except.ok.inj (h.isIn (map [("0", number 1)]))
  rw [hzero, hminus] at heq
  cases heq

end Value

end Edict

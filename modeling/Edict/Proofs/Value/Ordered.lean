import Edict.Proofs.Value.KeyOrder
import Edict.Proofs.Value.Lens

/-!
# Values with their maps in order

Of a value in which every map has its entries in ascending order of keys (`Value.Ordered`), all
parts are such values.  So what is read along a path is one, and pushing a value onto a list at the
end of a path leaves one, if the value is one.

## Main statements

* `Value.ordered_list_iff`, `Value.ordered_map_iff`, `Value.ordered_ofList`: what it is for a list,
  a map and an object to be ordered.
* `Value.Ordered.read`, `Value.Ordered.append`: reading and pushing along a path.
* `Value.ordered_of_arith`, `Builtin.ordered_of_extreme`: what is computed is ordered.
-/

namespace Edict

namespace Value

/-- Items are ordered if each of them is. -/
theorem orderedItems_iff {items : List Value} : OrderedItems items ↔ ∀ v ∈ items, v.Ordered := by
  induction items with
  | nil => simp [OrderedItems]
  | cons v items ih => simp [OrderedItems, ih]

/-- The values of entries are ordered if each of them is. -/
theorem orderedEntries_iff {entries : List (String × Value)} :
    OrderedEntries entries ↔ ∀ p ∈ entries, p.2.Ordered := by
  induction entries with
  | nil => simp [OrderedEntries]
  | cons p entries ih => simp [OrderedEntries, ih]

/-- What stands for a missing value has no maps in it. -/
@[simp] theorem ordered_absent : absent.Ordered := by simp [Ordered]

/-- A list is ordered if its items are. -/
theorem ordered_list_iff {items : List Value} : (list items).Ordered ↔ ∀ v ∈ items, v.Ordered := by
  rw [Ordered, orderedItems_iff]

/-- A map is ordered if its keys ascend and its values are ordered. -/
theorem ordered_map_iff {entries : List (String × Value)} :
    (map entries).Ordered ↔ Entries.Ascending entries ∧ ∀ p ∈ entries, p.2.Ordered := by
  rw [Ordered, orderedEntries_iff]

/-- An object is ordered in whatever order its entries are listed. -/
theorem ordered_ofList {pairs : List (String × Value)} (h : ∀ p ∈ pairs, p.2.Ordered) :
    (map (Entries.ofList pairs)).Ordered := by
  refine ordered_map_iff.mpr ⟨Entries.ascending_ofList pairs, fun p hp => ?_⟩
  obtain ⟨q, hq, hpq⟩ := Entries.exists_of_mem_ofList hp
  rw [hpq]
  exact h q hq

/-- What arithmetic gives is a number or a text. -/
theorem ordered_of_arith {a : ArithOp} {u v w : Value} (h : arith a u v = .ok w) : w.Ordered := by
  unfold arith at h
  split at h <;> cases h <;> simp [Ordered]

namespace Ordered

variable {x y v : Value} {s : Slot} {keys : List Key}

/-- What is shown in a slot is ordered. -/
theorem shown? (h : x.Ordered) (hv : x.shown? s = some v) : v.Ordered := by
  unfold Value.shown? at hv
  split at hv
  · rename_i entries name
    obtain rfl := Option.some.inj hv
    rcases hfound : Entries.find? name entries with _ | w
    · exact ordered_absent
    · exact (ordered_map_iff.mp h).2 _ (Entries.mem_of_find? hfound)
  · exact ordered_list_iff.mp h v (List.mem_of_getElem? hv)
  · cases hv

/-- An ordered value may be put into any slot. -/
theorem put (h : x.Ordered) (hv : v.Ordered) (s : Slot) : (x.put s v).Ordered := by
  unfold Value.put
  split
  · obtain ⟨hascending, hvalues⟩ := ordered_map_iff.mp h
    refine ordered_map_iff.mpr ⟨hascending.insert _ v, fun p hp => ?_⟩
    rcases Entries.eq_or_mem_of_mem_insert hp with rfl | hp
    · exact hv
    · exact hvalues p hp
  · have hitems := ordered_list_iff.mp h
    refine ordered_list_iff.mpr fun w hw => ?_
    split at hw
    · rcases List.mem_append.mp hw with hw | hw
      · exact hitems w hw
      · exact List.mem_singleton.mp hw ▸ hv
    · rcases List.mem_or_eq_of_mem_set hw with hw | rfl
      · exact hitems w hw
      · exact hv
  · exact h

/-- What is read along a path is ordered. -/
theorem read (h : x.Ordered) (hv : Value.read keys x = .ok v) : v.Ordered := by
  induction keys generalizing x with
  | nil =>
      obtain rfl : x = v := Except.ok.inj hv
      exact h
  | cons key keys ih =>
      obtain ⟨s, child, -, hchild, hv⟩ := read_cons_eq_ok_iff.mp hv
      exact ih (h.shown? hchild) hv

/-- A change of what is at the end of a path keeps the value ordered. -/
theorem modify {change : Value → Except Fault Value}
    (hchange : ∀ u w, u.Ordered → change u = .ok w → w.Ordered) (h : x.Ordered)
    (hy : Value.modify change keys x = .ok y) : y.Ordered := by
  induction keys generalizing x y with
  | nil => exact hchange x y h hy
  | cons key keys ih =>
      obtain ⟨s, old, new, -, hold, hnew, rfl⟩ := modifyStep_eq_ok_iff.mp hy
      exact h.put (ih (h.shown? (shown?_of_at? hold)) hnew) s

/-- Pushing an ordered value onto a list in the value keeps it ordered. -/
theorem append {item : Value} (h : x.Ordered) (hitem : item.Ordered)
    (hy : Value.append item keys x = .ok y) : y.Ordered := by
  refine modify (fun u w hu hw => ?_) h hy
  unfold pushItem at hw
  split at hw
  · obtain rfl := Except.ok.inj hw
    refine ordered_list_iff.mpr fun v hv => ?_
    rcases List.mem_append.mp hv with hv | hv
    · exact ordered_list_iff.mp hu v hv
    · exact List.mem_singleton.mp hv ▸ hitem
  · cases hw

end Ordered

end Value

/-- The function that looks for the extreme value gives one of the values, or none. -/
theorem Builtin.ordered_of_extreme {f : Builtin} {wanted : Ordering} {vs : List Value} {v : Value}
    (h : ∀ u ∈ vs, u.Ordered) (hv : Builtin.extreme f wanted vs = .ok v) : v.Ordered := by
  have hfrom : ∀ best rest, best.Ordered → (∀ u ∈ rest, Value.Ordered u) →
      Builtin.extremeFrom f wanted best rest = .ok v → v.Ordered := by
    intro best rest
    induction rest generalizing best with
    | nil =>
        intro hbest _ hv
        obtain rfl := Except.ok.inj hv
        exact hbest
    | cons candidate rest ih =>
        intro hbest hrest hv
        obtain ⟨hcandidate, hrest⟩ := List.forall_mem_cons.mp hrest
        obtain ⟨o, -, hv⟩ := bind_eq_ok_iff.mp hv
        refine ih _ ?_ hrest hv
        split
        · exact hcandidate
        · exact hbest
  cases vs with
  | nil =>
      obtain rfl := Except.ok.inj hv
      exact Value.ordered_absent
  | cons first rest =>
      obtain ⟨hfirst, hrest⟩ := List.forall_mem_cons.mp h
      exact hfrom first rest hfirst hrest hv

end Edict

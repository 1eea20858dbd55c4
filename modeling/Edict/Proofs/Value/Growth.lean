import Edict.Proofs.Value.Lens

/-!
# Values that grow

A value grows to another one if that is the same but for longer lists: a list keeps its items, each
of which may have grown, in front of new ones, and a map keeps its keys (`Value.GrowsTo`).  Growing
is reflexive and transitive.  Putting a grown value into a slot makes the container grow
(`Value.growsTo_put`), so pushing onto a list at any depth makes the whole value grow
(`Value.growsTo_append`).

In a grown value every path that could be read can be read, and what is found there has grown as
well (`Value.GrowsTo.read`).

## Main definitions

* `Value.GrowsTo`: one value is another with longer lists in it, at any depth.

## Main statements

* `Value.growsTo_append`: whatever is pushed, and wherever, the value grows.
* `Value.GrowsTo.read`: what can be read can still be read, and has grown.  Nothing is said about
  paths that could not be read before.
-/

namespace Edict

namespace Value

mutual

/-- The second value is the first one but for lists that have grown. -/
inductive GrowsTo : Value → Value → Prop
  | number (x : Float) : GrowsTo (.number x) (.number x)
  | text (s : String) : GrowsTo (.text s) (.text s)
  | bool (b : Bool) : GrowsTo (.bool b) (.bool b)
  | list {items news : List Value} : ItemsGrow items news → GrowsTo (.list items) (.list news)
  | map {entries news : List (String × Value)} : EntriesGrow entries news →
      GrowsTo (.map entries) (.map news)
  | absent : GrowsTo .absent .absent

/-- The items of a list, each of them grown, are followed by new ones. -/
inductive ItemsGrow : List Value → List Value → Prop
  | nil (added : List Value) : ItemsGrow [] added
  | cons {v w : Value} {vs ws : List Value} : GrowsTo v w → ItemsGrow vs ws →
      ItemsGrow (v :: vs) (w :: ws)

/-- The entries of a map have the same keys, and grown values. -/
inductive EntriesGrow : List (String × Value) → List (String × Value) → Prop
  | nil : EntriesGrow [] []
  | cons {name : String} {v w : Value} {es fs : List (String × Value)} : GrowsTo v w →
      EntriesGrow es fs → EntriesGrow ((name, v) :: es) ((name, w) :: fs)

end

/-! ## Reflexivity and transitivity -/

mutual

/-- A value that stays as it is has grown. -/
theorem GrowsTo.refl : ∀ v : Value, GrowsTo v v
  | .number x => .number x
  | .text s => .text s
  | .bool b => .bool b
  | .list items => .list (ItemsGrow.refl items)
  | .map entries => .map (EntriesGrow.refl entries)
  | .absent => .absent

/-- The same for the items of a list. -/
theorem ItemsGrow.refl : ∀ items : List Value, ItemsGrow items items
  | [] => .nil []
  | v :: vs => .cons (GrowsTo.refl v) (ItemsGrow.refl vs)

/-- The same for the entries of a map. -/
theorem EntriesGrow.refl : ∀ entries : List (String × Value), EntriesGrow entries entries
  | [] => .nil
  | (_, v) :: es => .cons (GrowsTo.refl v) (EntriesGrow.refl es)

end

mutual

/-- What has grown twice has grown. -/
theorem GrowsTo.trans {u v w : Value} : GrowsTo u v → GrowsTo v w → GrowsTo u w
  | .number _, h => h
  | .text _, h => h
  | .bool _, h => h
  | .list h, .list k => .list (h.trans k)
  | .map h, .map k => .map (h.trans k)
  | .absent, h => h

/-- The same for the items of a list. -/
theorem ItemsGrow.trans {us vs ws : List Value} : ItemsGrow us vs → ItemsGrow vs ws → ItemsGrow us ws
  | .nil _, _ => .nil _
  | .cons h hs, .cons k ks => .cons (h.trans k) (hs.trans ks)

/-- The same for the entries of a map. -/
theorem EntriesGrow.trans {es fs gs : List (String × Value)} :
    EntriesGrow es fs → EntriesGrow fs gs → EntriesGrow es gs
  | .nil, .nil => .nil
  | .cons h hs, .cons k ks => .cons (h.trans k) (hs.trans ks)

end

/-! ## Changes that make a container grow -/

section containers

variable {items : List Value} {entries news : List (String × Value)} {name : String} {n : Nat}
  {v w : Value}

/-- A list grows by what is put behind it. -/
theorem itemsGrow_append (items added : List Value) : ItemsGrow items (items ++ added) := by
  induction items with
  | nil => exact .nil added
  | cons v items ih => exact .cons (.refl v) ih

/-- A list grows if one of its items does. -/
theorem itemsGrow_set (hv : items[n]? = some v) (h : GrowsTo v w) :
    ItemsGrow items (items.set n w) := by
  induction items generalizing n with
  | nil => exact .nil _
  | cons u items ih =>
      cases n with
      | zero =>
          obtain rfl : u = v := by simpa using hv
          exact .cons h (.refl items)
      | succ n => exact .cons (.refl u) (ih (by simpa using hv))

/-- A map grows if the value of one of its keys does. -/
theorem entriesGrow_replace (hv : Entries.find? name entries = some v) (h : GrowsTo v w) :
    EntriesGrow entries (Entries.replace name w entries) := by
  induction entries with
  | nil => exact .nil
  | cons entry entries ih =>
      obtain ⟨k, u⟩ := entry
      unfold Entries.find? at hv
      unfold Entries.replace
      split
      · rename_i hk
        rw [if_pos hk] at hv
        obtain rfl := Option.some.inj hv
        exact .cons h (.refl entries)
      · rename_i hk
        rw [if_neg hk] at hv
        exact .cons (.refl u) (ih hv)

/-- A container grows if what one of its slots holds does. -/
theorem growsTo_put {x : Value} {s : Slot} (hv : x.at? s = some v) (h : GrowsTo v w) :
    GrowsTo x (x.put s w) := by
  unfold at? at hv
  split at hv
  · rename_i entries name
    have hfound : Entries.contains name entries = true := by simp [Entries.contains, hv]
    simp only [put, Entries.insert, if_pos hfound]
    exact .map (entriesGrow_replace hv h)
  · rename_i items n
    rw [put_item_of_lt (List.getElem?_eq_some_iff.mp hv).1]
    exact .list (itemsGrow_set hv h)
  · cases hv

end containers

/-- Pushing onto a list, at the end of any path, makes the whole value grow. -/
theorem growsTo_append {item x y : Value} {keys : List Key} (h : append item keys x = .ok y) :
    GrowsTo x y := by
  induction keys generalizing x y with
  | nil =>
      cases x with
      | list items =>
          cases h
          exact .list (itemsGrow_append items [item])
      | _ => cases h
  | cons key keys ih =>
      obtain ⟨s, old, new, -, hold, hnew, rfl⟩ := modifyStep_eq_ok_iff.mp h
      exact growsTo_put hold (ih hnew)

/-! ## Reading what has grown -/

section reading

variable {x y v : Value} {s : Slot} {key : Key} {keys : List Key}

/-- The items of a grown list. -/
theorem ItemsGrow.getElem? {items news : List Value} (h : ItemsGrow items news) {n : Nat}
    (hv : items[n]? = some v) : ∃ w, news[n]? = some w ∧ GrowsTo v w := by
  induction items generalizing news n with
  | nil => cases hv
  | cons u items ih =>
      cases h with
      | cons hu hrest =>
          cases n with
          | zero =>
              obtain rfl : u = v := by simpa using hv
              exact ⟨_, rfl, hu⟩
          | succ n => exact ih hrest (by simpa using hv)

/-- The value of a key in a grown map, or none in both. -/
theorem EntriesGrow.find? {entries news : List (String × Value)} (h : EntriesGrow entries news)
    (name : String) : Option.Rel GrowsTo (Entries.find? name entries) (Entries.find? name news) := by
  induction entries generalizing news with
  | nil =>
      cases h
      exact .none
  | cons entry entries ih =>
      cases h with
      | cons hv hrest =>
          unfold Entries.find?
          split
          · exact .some hv
          · exact ih hrest

/-- What reading makes of the value of a key, or of its absence. -/
theorem GrowsTo.getD {o p : Option Value} (h : Option.Rel GrowsTo o p) :
    GrowsTo (o.getD .absent) (p.getD .absent) := by
  cases h with
  | some h => exact h
  | none => exact .absent

/-- A key selects the same slot in a grown container. -/
theorem GrowsTo.slot?_eq (h : GrowsTo x y) (key : Key) : key.slot? y = key.slot? x := by
  cases h <;> rfl

/-- What a slot of a grown container shows has grown. -/
theorem GrowsTo.shown? (h : GrowsTo x y) (hv : x.shown? s = some v) :
    ∃ w, y.shown? s = some w ∧ GrowsTo v w := by
  cases h with
  | list hitems =>
      cases s with
      | entry name => cases hv
      | item n => exact hitems.getElem? hv
  | map hentries =>
      cases s with
      | item n => cases hv
      | entry name =>
          obtain rfl := Option.some.inj hv
          exact ⟨_, rfl, GrowsTo.getD (hentries.find? name)⟩
  | _ => cases hv

/-- What is read along a path is read there in a grown value, and has grown. -/
theorem GrowsTo.read (h : GrowsTo x y) (hv : Value.read keys x = .ok v) :
    ∃ w, Value.read keys y = .ok w ∧ GrowsTo v w := by
  induction keys generalizing x y with
  | nil =>
      obtain rfl : x = v := Except.ok.inj hv
      exact ⟨y, rfl, h⟩
  | cons key keys ih =>
      obtain ⟨s, child, hs, hchild, hv⟩ := read_cons_eq_ok_iff.mp hv
      obtain ⟨child', hchild', hgrown⟩ := h.shown? hchild
      obtain ⟨w, hw, hvw⟩ := ih hgrown hv
      exact ⟨w, read_cons_eq_ok_iff.mpr ⟨s, child', (h.slot?_eq key).trans hs, hchild', hw⟩, hvw⟩

end reading

end Value

end Edict

import Edict.Proofs.Run.Law
import Edict.Proofs.Value.Lens

/-!
# Places in a context as lenses

An assignment along a path of resolved keys is seen by reading at the same place and by no reading
at a place apart from it, and it leaves no trace of what was there before: the laws of a lens
(`Run.store_lens`).  They are those of paths inside of one value, carried to the variable, or to
`$val`, at which the path begins.

## Main definitions

* `Context.Holds`: an entry or an element of the context that exists.
* `Context.Apart`: two paths that part in the context, as it is before a write.

## Main statements

* `Run.store_lens`: all four laws, for every path of at least one key and in every context.  The
  writes are assignments by `=` that get through; nothing is said about those that fail.
-/

namespace Edict

/-! ## Names -/

namespace Context

variable {c : Context} {x : String} {v : Value}

/-- A name has the value that it was given. -/
@[simp] theorem lookup_bind (c : Context) (x : String) (v : Value) :
    (c.bind x v).lookup x = some v := by
  by_cases hx : x = loopName <;> simp [bind, lookup, hx, set, get?]

/-- The other names have the values that they had. -/
theorem lookup_bind_of_ne {y : String} (h : y ≠ x) (c : Context) (v : Value) :
    (c.bind x v).lookup y = c.lookup y := by
  by_cases hx : x = loopName
  · subst hx
    simp [bind, lookup, h, get?]
  · by_cases hy : y = loopName
    · simp [bind, lookup, hx, hy, set]
    · simp [bind, lookup, hx, hy, set, get?, Entries.find?_insert_of_ne (Ne.symm h)]

/-- Of two values given to a name the second one stays. -/
@[simp] theorem bind_bind (c : Context) (x : String) (u v : Value) :
    (c.bind x u).bind x v = c.bind x v := by
  by_cases hx : x = loopName <;> simp [bind, hx, set]

/-- Giving a name the value that it has changes nothing. -/
theorem bind_of_lookup (h : c.lookup x = some v) : c.bind x v = c := by
  by_cases hx : x = loopName
  · simp only [lookup, if_pos hx] at h
    simp only [bind, if_pos hx, ← h]
  · simp only [lookup, if_neg hx] at h
    simp only [bind, if_neg hx, set, Entries.insert_of_find? h]

/-- There is something in the context at the end of the path: an entry of a map or an item of a
list, to which every key on the way leads. -/
def Holds (c : Context) (root : String) (keys : List Key) : Prop :=
  ∃ outer v, c.lookup root = some outer ∧ outer.entry? keys = some v

/-- The two paths from a name part in the context: at some step they select different entries of one
map or different positions in one list. -/
def Apart (c : Context) (root : String) (keys others : List Key) : Prop :=
  ∃ outer, c.lookup root = some outer ∧ outer.Apart keys others

end Context

namespace Run

variable {c d : Context} {root : String} {keys parents others : List Key} {last : Key}
  {op : AssignOp} {u v : Value}

/-! ## Reading and writing -/

/-- A result that does not look at the context leaves it as it is. -/
theorem ofExcept_eq_ok_iff {α : Type} {r : Except Fault α} {a : α} :
    ofExcept r c = some (.ok a, d) ↔ d = c ∧ r = .ok a := by
  rw [ofExcept_apply, Option.some_inj, Prod.mk.injEq, and_comm, eq_comm]

/-- What is read along a path is in the value of the name. -/
theorem readPath_eq_ok_iff :
    readPath root keys c = some (.ok u, d) ↔
      d = c ∧ ∃ outer, c.lookup root = some outer ∧ Value.read keys outer = .ok u := by
  unfold readPath
  rw [bind_apply, lookup_apply]
  rcases c.lookup root with _ | outer
  · simp
  · simp [ofExcept_eq_ok_iff]

/-- A name that is changed has a value. -/
theorem update_eq_ok_iff {change : Value → Except Fault Value} :
    update root change c = some (.ok (), d) ↔
      ∃ old new, c.lookup root = some old ∧ change old = .ok new ∧ d = c.bind root new := by
  rw [update_apply]
  rcases hlookup : c.lookup root with _ | old
  · simp
  · rcases hchange : change old with f | new
    · simp [hchange]
    · simp [hchange, eq_comm]

/-- An assignment along a path of at least one key changes the name at its beginning. -/
theorem store_concat :
    store root (parents ++ [last]) op v = update root (Value.assign op v parents last) := by
  simp [store]

/-! ## Laws -/

/-- What was assigned is read. -/
theorem readPath_store (h : store root (parents ++ [last]) .set v c = some (.ok (), d)) :
    readPath root (parents ++ [last]) d = some (.ok v, d) := by
  rw [store_concat] at h
  obtain ⟨old, new, hold, hnew, rfl⟩ := update_eq_ok_iff.mp h
  exact readPath_eq_ok_iff.mpr ⟨rfl, new, c.lookup_bind root new, Value.read_assign hnew⟩

/-- After an assignment another one at the same place succeeds, and leaves the context that it would
have left without the first one. -/
theorem store_store (h : store root (parents ++ [last]) .set v c = some (.ok (), d)) (w : Value) :
    ∃ e, store root (parents ++ [last]) .set w d = some (.ok (), e) ∧
      store root (parents ++ [last]) .set w c = some (.ok (), e) := by
  simp only [store_concat] at h ⊢
  obtain ⟨old, new, hold, hnew, rfl⟩ := update_eq_ok_iff.mp h
  obtain ⟨z, hagain, hdirect⟩ := Value.assign_assign hnew w
  refine ⟨c.bind root z, update_eq_ok_iff.mpr ⟨new, z, c.lookup_bind root new, hagain, ?_⟩,
    update_eq_ok_iff.mpr ⟨old, z, hold, hdirect, rfl⟩⟩
  rw [Context.bind_bind]

/-- What is read along a path that parts from that of an assignment stays as it is. -/
theorem readPath_store_of_apart (h : store root (parents ++ [last]) .set v c = some (.ok (), d))
    (hapart : c.Apart root (parents ++ [last]) others)
    (hread : readPath root others c = some (.ok u, c)) :
    readPath root others d = some (.ok u, d) := by
  rw [store_concat] at h
  obtain ⟨old, new, hold, hnew, rfl⟩ := update_eq_ok_iff.mp h
  obtain ⟨outer, houter, hapart⟩ := hapart
  obtain rfl := Option.some.inj (hold.symm.trans houter)
  obtain ⟨-, outer, houter, hread⟩ := readPath_eq_ok_iff.mp hread
  obtain rfl := Option.some.inj (hold.symm.trans houter)
  exact readPath_eq_ok_iff.mpr
    ⟨rfl, new, c.lookup_bind root new, Value.read_assign_of_apart hnew hapart hread⟩

/-- Assigning what is at a place already changes nothing. -/
theorem store_readPath (hholds : c.Holds root (parents ++ [last]))
    (hread : readPath root (parents ++ [last]) c = some (.ok u, c)) :
    store root (parents ++ [last]) .set u c = some (.ok (), c) := by
  obtain ⟨outer, w, houter, hentry⟩ := hholds
  obtain ⟨-, outer, houter', hread⟩ := readPath_eq_ok_iff.mp hread
  obtain rfl := Option.some.inj (houter.symm.trans houter')
  obtain rfl := Except.ok.inj ((Value.read_of_entry? hentry).symm.trans hread)
  rw [store_concat]
  exact update_eq_ok_iff.mpr
    ⟨outer, outer, houter, Value.assign_of_entry? hentry, (Context.bind_of_lookup houter).symm⟩

/-- Assignments by `=` along a path of at least one key obey the laws of a lens.  What was assigned
is read; of two assignments the second one counts; what is read along a path that parts from theirs
stays as it is; and assigning what is read from an entry or item that is there changes nothing. -/
theorem store_lens (hkeys : keys ≠ []) (c : Context) (root : String) :
    (∀ v d, store root keys .set v c = some (.ok (), d) →
      readPath root keys d = some (.ok v, d) ∧
      (∀ w, ∃ e, store root keys .set w d = some (.ok (), e) ∧
        store root keys .set w c = some (.ok (), e)) ∧
      ∀ others u, c.Apart root keys others →
        readPath root others c = some (.ok u, c) → readPath root others d = some (.ok u, d)) ∧
    (c.Holds root keys →
      ∀ u, readPath root keys c = some (.ok u, c) → store root keys .set u c = some (.ok (), c)) := by
  obtain ⟨parents, last, rfl⟩ := (List.eq_nil_or_concat keys).resolve_left hkeys
  rw [List.concat_eq_append]
  refine ⟨fun v d h => ⟨readPath_store h, store_store h, ?_⟩, ?_⟩
  · exact fun others u hapart hread => readPath_store_of_apart h hapart hread
  · exact fun hholds u hread => store_readPath hholds hread

/-- An item is added to a list inside of a map.  It can be read and replaced; the other entry of the
map, which is named in another way, and the item before stay as they are. -/
theorem store_lens_push :
    let c : Context := ⟨[("m", .map [("a", .list [.bool true]), ("b", .text "old")])], none, none,
      Log.empty .buffer⟩
    let keys : List Key := [.field "a", .index (.number 1)]
    ∃ d, store "m" keys .set (.text "new") c = some (.ok (), d) ∧
      readPath "m" keys d = some (.ok (.text "new"), d) ∧
      (∃ e, store "m" keys .set (.text "newer") d = some (.ok (), e)) ∧
      readPath "m" [.index (.text "b")] d = some (.ok (.text "old"), d) ∧
      readPath "m" [.index (.text "a"), .index (.number 0)] d = some (.ok (.bool true), d) ∧
      store "m" [.field "a", .index (.number 0)] .set (.bool true) c = some (.ok (), c) := by
  intro c keys
  have hb : c.Apart "m" keys [.index (.text "b")] :=
    ⟨_, rfl, .entry "a", .entry "b", rfl, rfl, .inl (by decide)⟩
  have ha : c.Apart "m" keys [.index (.text "a"), .index (.number 0)] := by
    refine ⟨_, rfl, .entry "a", .entry "a", rfl, rfl, .inr ⟨rfl, _, rfl, .item 1, .item 0, ?_⟩⟩
    exact ⟨by with_unfolding_all rfl, by with_unfolding_all rfl, .inl (by decide)⟩
  have hholds : c.Holds "m" [.field "a", .index (.number 0)] :=
    ⟨_, _, rfl, by with_unfolding_all rfl⟩
  obtain ⟨d, hd⟩ : ∃ d, store "m" keys .set (.text "new") c = some (.ok (), d) :=
    ⟨_, by with_unfolding_all rfl⟩
  have hkeys : keys ≠ [] := by decide
  obtain ⟨hread, hagain, hframe⟩ := (store_lens hkeys c "m").1 _ d hd
  obtain ⟨e, he, -⟩ := hagain (.text "newer")
  refine ⟨d, hd, hread, ⟨e, he⟩, hframe _ _ hb rfl, hframe _ _ ha ?_, ?_⟩
  · with_unfolding_all rfl
  · refine (store_lens (by decide) c "m").2 hholds _ ?_
    with_unfolding_all rfl

end Run

end Edict

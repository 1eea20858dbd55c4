import Edict.Proofs.Run.Compound
import Edict.Proofs.Value.Appending

/-!
# Appending in two ways

`APPEND(p, e)` and `p[n] = e`, with `n` the length of the list at `p`, do the same as long as no
part of `p` and `e` logs or appends.  Both evaluate `e` first and the keys of `p` second, so they
fail together; if they do not, both leave the context that an assignment of the longer list to `p`
would leave.  What that assignment leaves as it is, and that it can be taken back, are the laws of a
lens.

## Main definitions

* `Context.DiffersAt`: two contexts differ at the end of a path alone.
* `Reference.item`: the place with one more index at its end.

## Main statements

* `Run.exists_store_update`: changing what is at a place is assigning its new value.
* `Stmt.exec_append`: pushing onto a list and assigning behind its last item have the same outcome,
  and what they change.
-/

namespace Edict

namespace Run

variable {c d : Context} {root : String} {keys : List Key} {u : Value}

/-! ## Assigning over what is there -/

/-- There is something where something is read, unless that stands for a missing entry. -/
theorem holds_of_readPath (hread : readPath root keys c = some (.ok u, c)) (hu : u ≠ .absent) :
    c.Holds root keys := by
  obtain ⟨-, outer, houter, hread⟩ := readPath_eq_ok_iff.mp hread
  exact ⟨outer, u, houter, Value.entry?_of_read hread hu⟩

/-- What is at a place may be replaced by any other value, and every change of it that results in
this value leaves the same context. -/
theorem exists_store_update (hread : readPath root keys c = some (.ok u, c)) (hu : u ≠ .absent)
    (w : Value) :
    ∃ d, store root keys .set w c = some (.ok (), d) ∧
      ∀ change, change u = .ok w → update root (Value.modify change keys) c = some (.ok (), d) := by
  obtain ⟨-, outer, houter, hread⟩ := readPath_eq_ok_iff.mp hread
  rcases List.eq_nil_or_concat keys with rfl | ⟨parents, last, rfl⟩
  · obtain rfl : outer = u := Except.ok.inj hread
    exact ⟨c.bind root w, rfl, fun change hw => update_eq_ok_iff.mpr ⟨outer, w, houter, hw, rfl⟩⟩
  · rw [List.concat_eq_append] at hread ⊢
    obtain ⟨y, hassign, hmodify⟩ :=
      Value.exists_assign_modify (Value.entry?_of_read hread hu) w
    refine ⟨c.bind root y, ?_, fun change hw => ?_⟩
    · rw [store_concat]
      exact update_eq_ok_iff.mpr ⟨outer, y, houter, hassign, rfl⟩
    · exact update_eq_ok_iff.mpr ⟨outer, y, houter, hmodify change hw, rfl⟩

/-- An assignment changes only what depends on the value of its name. -/
theorem eq_of_store {β : Type} (part : Context → β) (hpart : ∀ c v, part (c.bind root v) = part c)
    {op : AssignOp} {w : Value} (h : store root keys op w c = some (.ok (), d)) : part d = part c :=
  store_keeps hpart keys op w c _ d h

end Run

/-- The second context differs from the first one at the end of a path alone: the first one has the
value `u` there and the second one `w`.  Assigning `u` leads back to the first context; what is read
at other names, and along paths that part from this one, is the same. -/
structure Context.DiffersAt (c d : Context) (root : String) (keys : List Key) (u w : Value) :
    Prop where
  read : Run.readPath root keys d = some (.ok w, d)
  back : Run.store root keys .set u d = some (.ok (), c)
  lookup : ∀ x, x ≠ root → d.lookup x = c.lookup x
  apart : ∀ others v, c.Apart root keys others →
    Run.readPath root others c = some (.ok v, c) → Run.readPath root others d = some (.ok v, d)
  log : d.log = c.log
  model : d.model = c.model

/-- Giving a name a value leaves the log as it is. -/
@[simp] theorem Context.log_bind (c : Context) (x : String) (v : Value) :
    (c.bind x v).log = c.log := by
  unfold Context.bind
  split <;> rfl

/-- It leaves the model as it is, too. -/
@[simp] theorem Context.model_bind (c : Context) (x : String) (v : Value) :
    (c.bind x v).model = c.model := by
  unfold Context.bind
  split <;> rfl

namespace Run

variable {c d : Context} {root : String} {keys : List Key} {u w : Value}

/-- Assigning over what is there can be taken back. -/
theorem store_back (hread : readPath root keys c = some (.ok u, c)) (hu : u ≠ .absent)
    (h : store root keys .set w c = some (.ok (), d)) :
    store root keys .set u d = some (.ok (), c) := by
  have hholds := holds_of_readPath hread hu
  rcases List.eq_nil_or_concat keys with rfl | ⟨parents, last, rfl⟩
  · obtain ⟨-, outer, houter, hread⟩ := readPath_eq_ok_iff.mp hread
    obtain rfl : outer = u := Except.ok.inj hread
    cases h
    show some (Except.ok (), (c.bind root w).bind root outer) = _
    rw [Context.bind_bind, Context.bind_of_lookup houter]
  · rw [List.concat_eq_append] at hread hholds h ⊢
    obtain ⟨e, hagain, hdirect⟩ := store_store h u
    rw [hagain, ← hdirect, store_readPath hholds hread]

/-- What was assigned is read, also without a path. -/
theorem readPath_of_store (h : store root keys .set w c = some (.ok (), d)) :
    readPath root keys d = some (.ok w, d) := by
  rcases List.eq_nil_or_concat keys with rfl | ⟨parents, last, rfl⟩
  · cases h
    exact readPath_eq_ok_iff.mpr ⟨rfl, w, c.lookup_bind root w, rfl⟩
  · rw [List.concat_eq_append] at h ⊢
    exact readPath_store h

/-- An assignment over what is there changes that alone. -/
theorem differsAt_of_store (hread : readPath root keys c = some (.ok u, c)) (hu : u ≠ .absent)
    (h : store root keys .set w c = some (.ok (), d)) : c.DiffersAt d root keys u w where
  read := readPath_of_store h
  back := store_back hread hu h
  lookup x hx := eq_of_store (·.lookup x) (Context.lookup_bind_of_ne hx) h
  log := eq_of_store Context.log (fun _ _ => Context.log_bind _ _ _) h
  model := eq_of_store Context.model (fun _ _ => Context.model_bind _ _ _) h
  apart others v hapart hothers := by
    rcases List.eq_nil_or_concat keys with rfl | ⟨parents, last, rfl⟩
    · obtain ⟨outer, -, hapart⟩ := hapart
      exact absurd hapart Value.not_apart_nil
    · rw [List.concat_eq_append] at h hapart
      exact readPath_store_of_apart h hapart hothers

end Run

/-! ## Statements -/

/-- One more index at the end of a path is one more key. -/
theorem Step.evalAll_index_lit (path : List Step) (l : Literal) :
    Step.evalAll (path ++ [.index (.lit l)]) =
      Step.evalAll path >>= fun keys => pure (keys ++ [.index l.value]) := by
  induction path with
  | nil => rfl
  | cons step path ih =>
      cases step with
      | field name => simp [Step.evalAll, ih]
      | index e => simp [Step.evalAll, ih]

/-- The place with one more index at its end. -/
def Reference.item (r : Reference) (n : Float) : Reference :=
  .property r.root (r.steps ++ [.index (.lit (.number n))])

/-- Assigning to an item evaluates the new value and the keys of the list, and then changes the
list. -/
theorem Stmt.exec_assign_item (r : Reference) (n : Float) (e : Expr) :
    (Stmt.assign (r.item n) .set e).exec =
      e.eval >>= fun v => Step.evalAll r.steps >>= fun keys =>
        Run.update r.root (Value.modify (Value.assignStep .set v (.index (.number n))) keys) := by
  show (e.eval >>= fun v => Step.evalAll (r.steps ++ [.index (.lit (.number n))]) >>= fun keys =>
    Run.store r.root keys .set v) = _
  simp only [Step.evalAll_index_lit, bind_assoc, pure_bind, Run.store_concat]
  rfl

section append

variable {p : Reference} {e : Expr} {f : String} {items : List Value} {n : Float} {c : Context}

/-- The keys of a reference without effects, and what they lead to. -/
theorem Reference.exists_keys (hp : p.toExpr.EffectFree) {u : Value}
    (h : p.toExpr.eval c = some (.ok u, c)) :
    ∃ keys, Step.evalAll p.steps c = some (.ok keys, c) ∧
      Run.readPath p.root keys c = some (.ok u, c) := by
  rw [Expr.eval_toExpr, p.read_eq] at h
  exact (Run.bind_eq_ok_iff_of_keeps (Expr.EffectFree.keys_keeps hp)).mp h

/-- A reference is a place. -/
theorem Reference.place?_toExpr (p : Reference) :
    p.toExpr.place? = some (p.root, Step.evalAll p.steps) := by
  cases p <;> rfl

/-- To push onto a list and to assign to the position behind its last item are the same, as long as
no part of the reference to the list and of the new item logs or appends: both fail as the
evaluation of the item does, or both succeed and leave the same context.  That differs from the one
before at the list alone, which has the item at its end. -/
theorem Stmt.exec_append (hf : Builtin.ofName? f = some .append) (hp : p.toExpr.EffectFree)
    (he : e.EffectFree) (hitems : p.toExpr.eval c = some (.ok (.list items), c))
    (hn : Number.toNat? n = some items.length) :
    (Stmt.call f [p.toExpr, e]).exec c = (Stmt.assign (p.item n) .set e).exec c ∧
    ((∃ g, e.eval c = some (.error g, c) ∧ (Stmt.call f [p.toExpr, e]).exec c = some (.error g, c)) ∨
      ∃ v keys d, e.eval c = some (.ok v, c) ∧ Step.evalAll p.steps c = some (.ok keys, c) ∧
        (Stmt.call f [p.toExpr, e]).exec c = some (.ok (), d) ∧
        c.DiffersAt d p.root keys (.list items) (.list (items ++ [v]))) := by
  obtain ⟨keys, hkeys, hlist⟩ := Reference.exists_keys hp hitems
  rw [Stmt.exec_push hf p.place?_toExpr e, Stmt.exec_assign_item]
  simp only [Run.bind_apply]
  obtain ⟨g | v, d, hv⟩ := e.eval_ending c
  · obtain rfl := he.eval_keeps.atomic _ _ _ hv
    simp only [hv]
    exact ⟨trivial, .inl ⟨g, rfl, rfl⟩⟩
  · obtain rfl := Run.eq_of_keeps he.eval_keeps hv
    obtain ⟨e', hstore, hupdate⟩ :=
      Run.exists_store_update hlist nofun (.list (items ++ [v]))
    have hpush := hupdate (Value.pushItem v) (Value.pushItem_list v items)
    have hassign := hupdate (Value.assignStep .set v _) (Value.assignStep_end hn v)
    simp only [hv, hkeys]
    exact ⟨hpush.trans hassign.symm,
      .inr ⟨v, keys, e', rfl, rfl, hpush, Run.differsAt_of_store hlist nofun hstore⟩⟩

end append

/-- An item is added to a list in a list in a map. -/
theorem Stmt.exec_append_nested :
    let p : Reference := .property "m" [.field "a", .index (.ident "i")]
    let e : Expr := .concat [.lit (.text "new "), .ident "t"]
    let c : Context := ⟨[("i", .number 0), ("m", .map [("a", .list [.list [.bool true]])]),
      ("t", .text "item")], none, none, Log.empty .buffer⟩
    ∃ d, (Stmt.call "Append" [p.toExpr, e]).exec c = some (.ok (), d) ∧
      (Stmt.assign (p.item 1) .set e).exec c = some (.ok (), d) ∧
      Run.readPath "m" [.field "a", .index (.number 0)] d =
        some (.ok (.list [.bool true, .text "new item"]), d) ∧ d.lookup "t" = some (.text "item") := by
  intro p e c
  have hf : Builtin.ofName? "Append" = some .append := by decide
  have hp : p.toExpr.EffectFree := by decide
  have he : e.EffectFree := by decide
  have hitems : p.toExpr.eval c = some (.ok (.list [.bool true]), c) := by with_unfolding_all rfl
  have hn : Number.toNat? 1 = some 1 := by decide +kernel
  have hkeys : Step.evalAll p.steps c = some (.ok [.field "a", .index (.number 0)], c) := rfl
  have hv : e.eval c = some (.ok (.text "new item"), c) := by with_unfolding_all rfl
  obtain ⟨hsame, ⟨g, hg, -⟩ | ⟨v, keys, d, hv', hkeys', hcall, hdiffers⟩⟩ :=
    Stmt.exec_append hf hp he hitems hn
  · rw [hv] at hg
    cases hg
  · rw [hv] at hv'
    rw [hkeys] at hkeys'
    cases hv'
    cases hkeys'
    exact ⟨d, hcall, hsame ▸ hcall, hdiffers.read, hdiffers.lookup "t" (by decide)⟩

end Edict

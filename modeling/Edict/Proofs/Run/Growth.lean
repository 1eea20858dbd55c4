import Edict.Proofs.Run.Ending
import Edict.Proofs.Run.Lens
import Edict.Proofs.Value.Growth

/-!
# Expressions only make lists grow

Whatever an expression does to variables and to the loop value, and however it ends, is this: lists
in them grow.  The only effect that an expression has on them is `APPEND`, which may stand anywhere
in it and push onto what another one has pushed, so the relation between the context before and the
one after must be transitive.

## Main definitions

* `Context.GrowsTo`: a context is another one but for lists that have grown.

## Main statements

* `Context.GrowsTo.readPath`: what is read along a path is still read there, and has grown.
* `Expr.eval_grows`: evaluation has an end and makes the context grow, also where it fails.
-/

namespace Edict

/-! ## Contexts that grow -/

/-- The same names have values in the second context, which are those of the first one but for lists
that have grown; the same holds of the loop slot. -/
structure Context.GrowsTo (c d : Context) : Prop where
  vars : ∀ x, Option.Rel Value.GrowsTo (c.get? x) (d.get? x)
  loop : Option.Rel Value.GrowsTo c.loop d.loop

namespace Value.GrowsTo

variable {o p q : Option Value}

/-- What is not there stays so, and what is there may be the same. -/
theorem rel_refl (o : Option Value) : Option.Rel GrowsTo o o := by
  cases o with
  | some v => exact .some (.refl v)
  | none => exact .none

/-- What has grown twice, or is not there, has grown. -/
theorem rel_trans (h : Option.Rel GrowsTo o p) (k : Option.Rel GrowsTo p q) :
    Option.Rel GrowsTo o q := by
  cases h with
  | some h =>
      cases k with
      | some k => exact .some (h.trans k)
  | none => exact k

/-- What has grown is there if it was. -/
theorem isSome_eq (h : Option.Rel GrowsTo o p) : p.isSome = o.isSome := by
  cases h <;> rfl

/-- What was there is there, and has grown. -/
theorem exists_of_rel (h : Option.Rel GrowsTo o p) {v : Value} (hv : o = some v) :
    ∃ w, p = some w ∧ v.GrowsTo w := by
  cases h with
  | some h =>
      cases hv
      exact ⟨_, rfl, h⟩
  | none => cases hv

end Value.GrowsTo

namespace Context.GrowsTo

variable {c d e : Context} {x : String} {v w : Value}

/-- A context that stays as it is has grown. -/
theorem refl (c : Context) : GrowsTo c c :=
  ⟨fun _ => Value.GrowsTo.rel_refl _, Value.GrowsTo.rel_refl _⟩

/-- What has grown twice has grown. -/
theorem trans (h : GrowsTo c d) (k : GrowsTo d e) : GrowsTo c e :=
  ⟨fun x => Value.GrowsTo.rel_trans (h.vars x) (k.vars x), Value.GrowsTo.rel_trans h.loop k.loop⟩

/-- The value of a name has grown. -/
theorem lookup (h : GrowsTo c d) (x : String) :
    Option.Rel Value.GrowsTo (c.lookup x) (d.lookup x) := by
  unfold Context.lookup
  split
  · exact h.loop
  · exact h.vars x

/-- A context grows if the value of one name does. -/
theorem bind (hv : c.lookup x = some v) (h : v.GrowsTo w) : GrowsTo c (c.bind x w) := by
  unfold Context.lookup at hv
  unfold Context.bind
  split
  · rename_i hx
    rw [if_pos hx] at hv
    refine ⟨fun _ => Value.GrowsTo.rel_refl _, ?_⟩
    rw [hv]
    exact .some h
  · rename_i hx
    rw [if_neg hx] at hv
    refine ⟨fun y => ?_, Value.GrowsTo.rel_refl _⟩
    have hget : (c.set x w).get? y = if x = y then some w else c.get? y :=
      Entries.find?_insert x w c.vars y
    rw [hget]
    split
    · rename_i hxy
      subst hxy
      rw [hv]
      exact .some h
    · exact Value.GrowsTo.rel_refl _

/-- What is read along a path can be read there in a grown context, and has grown. -/
theorem readPath (h : GrowsTo c d) {root : String} {keys : List Key}
    (hread : Run.readPath root keys c = some (.ok v, c)) :
    ∃ w, Run.readPath root keys d = some (.ok w, d) ∧ v.GrowsTo w := by
  obtain ⟨-, outer, houter, hv⟩ := Run.readPath_eq_ok_iff.mp hread
  obtain ⟨outer', houter', hgrown⟩ := Value.GrowsTo.exists_of_rel (h.lookup root) houter
  obtain ⟨w, hw, hvw⟩ := hgrown.read hv
  exact ⟨w, Run.readPath_eq_ok_iff.mpr ⟨rfl, outer', houter', hw⟩, hvw⟩

end Context.GrowsTo

/-! ## Expressions -/

/-- Pushing onto a list makes the context grow. -/
theorem Run.push_grows (root : String) (keys : List Key) (item : Value) :
    Run.Moves Context.GrowsTo (Run.update root (Value.append item keys)) := by
  intro c r d h
  rw [update_apply] at h
  rcases hold : c.lookup root with _ | old
  · rw [hold] at h
    cases h
    exact .refl c
  · rw [hold] at h
    dsimp only at h
    rcases hnew : Value.append item keys old with f | new
    · rw [hnew] at h
      cases h
      exact .refl c
    · rw [hnew] at h
      cases h
      exact .bind hold (Value.growsTo_append hnew)

/-- What an expression does itself makes the context grow. -/
theorem Expr.own_grows (e : Expr) : e.Own (Run.Moves Context.GrowsTo) where
  read root _ := Run.moves_of_keeps .refl (Run.lookup_keeps id root)
  log _ _ c _ _ h := by
    cases h
    exact ⟨(Context.GrowsTo.refl c).vars, (Context.GrowsTo.refl c).loop⟩
  node _ id := Run.moves_of_keeps .refl (Run.domainObject_keeps _ _ _ id)
  link _ id := Run.moves_of_keeps .refl (Run.domainObject_keeps _ _ _ id)
  push root _ keys v := Run.push_grows root keys v

/-- Evaluation makes the context grow. -/
theorem Expr.eval_moves_grows (e : Expr) : Run.Moves Context.GrowsTo e.eval :=
  Expr.eval_law (Run.law_moves Context.GrowsTo.refl Context.GrowsTo.trans) e fun x _ => x.own_grows

/-- The evaluation of an expression comes to a value or to a fault.  In both cases the same
variables have values before and after it, and the loop slot is filled or empty as before; their
values are the old ones but for lists that have grown; and what could be read along a path can still
be read there, but for lists that have grown. -/
theorem Expr.eval_grows (e : Expr) (c : Context) : ∃ r d, e.eval c = some (r, d) ∧
    (∀ x, (d.get? x).isSome = (c.get? x).isSome) ∧
    d.loop.isSome = c.loop.isSome ∧
    (∀ x v, c.get? x = some v → ∃ w, d.get? x = some w ∧ v.GrowsTo w) ∧
    (∀ v, c.loop = some v → ∃ w, d.loop = some w ∧ v.GrowsTo w) ∧
    ∀ root keys v, Run.readPath root keys c = some (.ok v, c) →
      ∃ w, Run.readPath root keys d = some (.ok w, d) ∧ v.GrowsTo w := by
  obtain ⟨r, d, hd⟩ := e.eval_ending c
  have hgrown : c.GrowsTo d := e.eval_moves_grows c r d hd
  refine ⟨r, d, hd, fun x => Value.GrowsTo.isSome_eq (hgrown.vars x),
    Value.GrowsTo.isSome_eq hgrown.loop, fun x v hv => ?_, fun v hv => ?_,
    fun root keys v hv => hgrown.readPath hv⟩
  · exact Value.GrowsTo.exists_of_rel (hgrown.vars x) hv
  · exact Value.GrowsTo.exists_of_rel hgrown.loop hv

/-- A sum that fails on its second operand.  Its first operand pushes a text onto a list in a map,
and to make that text it pushes onto a list in the loop value. -/
theorem Expr.eval_grows_failing :
    let inner : Expr :=
      .call "append" [.property "$val" [.index (.lit (.number 0))], .lit (.text "new")]
    let outer : Expr := .call "append" [.property "m" [.field "a", .index (.lit (.number 0))],
      .concat [.lit (.text "old and "), inner]]
    let e : Expr := .arith outer .add (.lit (.number 1))
    let c : Context := ⟨[("m", .map [("a", .list [.list [.bool true]])])],
      some (.list [.list []]), none, Log.empty .buffer⟩
    ∃ f d, e.eval c = some (.error f, d) ∧
      (∃ w, d.loop = some w ∧ (Value.list [.list []]).GrowsTo w) ∧
      ∃ w, Run.readPath "m" [.field "a", .index (.number 0)] d = some (.ok w, d) ∧
        (Value.list [.bool true]).GrowsTo w := by
  intro inner outer e c
  obtain ⟨f, d, hfails⟩ : ∃ f d, e.eval c = some (.error f, d) := ⟨_, _, by with_unfolding_all rfl⟩
  have hold : Run.readPath "m" [.field "a", .index (.number 0)] c =
      some (.ok (.list [.bool true]), c) := by
    with_unfolding_all rfl
  obtain ⟨r, d', hd, -, -, -, hloop, hread⟩ := Expr.eval_grows e c
  rw [hfails] at hd
  cases hd
  exact ⟨f, d, hfails, hloop _ rfl, hread _ _ _ hold⟩

end Edict

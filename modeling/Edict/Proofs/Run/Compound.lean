import Edict.Proofs.Run.Ending
import Edict.Proofs.Run.Lens
import Edict.Proofs.Run.Writes

/-!
# Compound assignments

`r += e` and `r = r + e` do the same, and so do the assignments with a minus sign, as long as no
part of `r` and `e` logs or appends.  The two go different ways: the one evaluates `e` first and
combines where the path ends; the other one reads `r`, evaluates `e`, evaluates the keys of `r` once
more and then assigns.

Such parts leave the context as it is, so the order of evaluation does not matter, nor does it
matter that the keys are evaluated twice.  What remains is that both succeed together, as reading
and writing select the same slots, and that an assignment that fails leaves everything as it was.

## Main definitions

* `Expr.EffectFree`: no part of an expression calls `LOG` or `APPEND`.  It may ask the model, which
  has no effect either.

## Main statements

* `Expr.EffectFree.eval_keeps`: such an expression leaves the context as it is.
* `Run.arithStore_eq_ok_iff`: a compound assignment along resolved keys reads, combines and assigns.
* `Stmt.exec_compound`: a compound assignment and its expansion both succeed and leave the same
  context, or both fail and leave it as it was.  They may fail with different faults.
-/

namespace Edict

/-! ## Expressions without effects -/

namespace Expr

/-- No part of the expression calls `LOG` or `APPEND`, in whatever letter case. -/
def EffectFree (e : Expr) : Prop :=
  ∀ x ∈ e.subterms, x.builtin? ≠ some .log ∧ x.builtin? ≠ some .append

instance (e : Expr) : Decidable e.EffectFree :=
  inferInstanceAs (Decidable (∀ x ∈ e.subterms, x.builtin? ≠ some .log ∧ x.builtin? ≠ some .append))

variable {e x : Expr}

/-- Without effects nothing is pushed. -/
theorem EffectFree.appendFree (h : e.EffectFree) : e.AppendFree := fun x hx => (h x hx).2

/-- What stands in an expression without effects changes nothing by itself. -/
theorem EffectFree.own_keeps (h : e.EffectFree) (hx : x ∈ e.subterms) : x.Own (Run.Keeps id) where
  read root _ := Run.lookup_keeps id root
  log hlog := absurd hlog (h x hx).1
  node _ id' := Run.domainObject_keeps id _ _ id'
  link _ id' := Run.domainObject_keeps id _ _ id'
  push root hroot := by
    rw [Expr.pushed?_of_appendFree h.appendFree hx] at hroot
    cases hroot

/-- An expression without effects leaves the context as it is. -/
theorem EffectFree.eval_keeps (h : e.EffectFree) : Run.Keeps id e.eval :=
  Expr.eval_law (Run.law_keeps id) e fun _ hx => h.own_keeps hx

/-- So do the keys of a reference without effects. -/
theorem EffectFree.keys_keeps {r : Reference} (h : r.toExpr.EffectFree) :
    Run.Keeps id (Step.evalAll r.steps) :=
  Step.evalAll_law (Run.law_keeps id) r.steps fun _ hx =>
    h.own_keeps (r.subtermsAll_steps_subset hx)

end Expr

namespace Run

variable {α β : Type} {m : Run α} {f : α → Run β} {c d : Context}

/-! ## Computations without effects -/

/-- What leaves the context as it is has a result in this context. -/
theorem eq_of_keeps (h : Keeps id m) {a : α} (hm : m c = some (.ok a, d)) : d = c :=
  h c _ d hm

/-- What follows such a computation runs in the same context. -/
theorem bind_eq_ok_iff_of_keeps (h : Keeps id m) {b : β} :
    (m >>= f) c = some (.ok b, d) ↔ ∃ a, m c = some (.ok a, c) ∧ f a c = some (.ok b, d) := by
  constructor
  · intro hb
    obtain ⟨a, e, hm, hf⟩ := exists_of_bind_ok hb
    obtain rfl := eq_of_keeps h hm
    exact ⟨a, hm, hf⟩
  · rintro ⟨a, hm, hf⟩
    rw [bind_apply, hm]
    exact hf

/-- What leaves the context as it is leaves it so when it fails. -/
theorem Keeps.atomic (h : Keeps id m) : Atomic m := fun c _ d hm => h c _ d hm

/-- What leaves the context as it is may precede what does so when it fails. -/
theorem Atomic.bind_of_keeps (h : Keeps id m) (hf : ∀ a, Atomic (f a)) : Atomic (m >>= f) := by
  intro c g d hm
  obtain ⟨g', hg, -⟩ | ⟨a, e, ha, hrest⟩ := cases_of_bind hm
  · exact h.atomic c g' d hg
  · obtain rfl := eq_of_keeps h ha
    exact hf a e g d hrest

/-- Two computations that have an end, succeed together, and do nothing when they fail. -/
theorem Atomic.both {m n : Run Unit} (hm : Atomic m) (hn : Atomic n) (hmend : Ending m)
    (hnend : Ending n) (h : ∀ d, m c = some (.ok (), d) ↔ n c = some (.ok (), d)) :
    (∃ d, m c = some (.ok (), d) ∧ n c = some (.ok (), d)) ∨
      ∃ f g, m c = some (.error f, c) ∧ n c = some (.error g, c) := by
  obtain ⟨f | ⟨⟨⟩⟩, d, hmc⟩ := hmend c
  · obtain rfl := hm c f d hmc
    obtain ⟨g | ⟨⟨⟩⟩, e, hnc⟩ := hnend d
    · obtain rfl := hn d g e hnc
      exact .inr ⟨f, g, hmc, hnc⟩
    · have hboth := hmc.symm.trans ((h e).mpr hnc)
      cases hboth
  · exact .inl ⟨d, hmc, (h d).mp hmc⟩

/-! ## Assignments -/

/-- An assignment by `+=` or `-=` reads what is at its place, combines it with the new value, and
assigns the result by `=`. -/
theorem arithStore_eq_ok_iff {op : AssignOp} {a : ArithOp} (hop : op.arith? = some a)
    {root : String} {keys : List Key} {v : Value} :
    store root keys op v c = some (.ok (), d) ↔
      ∃ old new, readPath root keys c = some (.ok old, c) ∧ Value.arith a old v = .ok new ∧
        store root keys .set new c = some (.ok (), d) := by
  rcases List.eq_nil_or_concat keys with rfl | ⟨parents, last, rfl⟩
  · have hstore : store root [] op v = update root (Value.arith a · v) := by simp [store, hop]
    have hset (new : Value) : store root [] .set new c = some (.ok (), (c.bind root new)) := rfl
    rw [hstore, update_eq_ok_iff]
    constructor
    · rintro ⟨old, new, hold, hnew, rfl⟩
      exact ⟨old, new, readPath_eq_ok_iff.mpr ⟨rfl, old, hold, rfl⟩, hnew, hset new⟩
    · rintro ⟨old, new, hread, hnew, hd⟩
      obtain ⟨-, outer, houter, hread⟩ := readPath_eq_ok_iff.mp hread
      obtain rfl : outer = old := Except.ok.inj hread
      rw [hset] at hd
      cases hd
      exact ⟨outer, new, houter, hnew, rfl⟩
  · simp only [List.concat_eq_append, store_concat, update_eq_ok_iff, readPath_eq_ok_iff]
    constructor
    · rintro ⟨outer, outer', houter, hassign, rfl⟩
      obtain ⟨old, new, hread, hnew, hset⟩ := (Value.arithAssign_eq_ok_iff hop).mp hassign
      exact ⟨old, new, ⟨trivial, outer, houter, hread⟩, hnew, outer, outer', houter, hset, rfl⟩
    · rintro ⟨old, new, ⟨-, outer, houter, hread⟩, hnew, outer₁, outer', houter₁, hset, rfl⟩
      obtain rfl := Option.some.inj (houter.symm.trans houter₁)
      exact ⟨outer, outer', houter,
        (Value.arithAssign_eq_ok_iff hop).mpr ⟨old, new, hread, hnew, hset⟩, rfl⟩

end Run

/-! ## Statements -/

section expansion

variable {r : Reference} {e : Expr} {op : AssignOp} {a : ArithOp} {c d : Context}
  (hr : r.toExpr.EffectFree) (he : e.EffectFree)
include hr he

/-- The value of `r + e` has no effects either. -/
theorem Expr.EffectFree.arith (a : ArithOp) : (Expr.arith r.toExpr a e).EffectFree := by
  intro x hx
  rcases List.mem_cons.mp hx with rfl | hx
  · exact ⟨nofun, nofun⟩
  · rcases List.mem_append.mp hx with hx | hx
    · exact hr x hx
    · exact he x hx

/-- The value of `r + e` combines what is read at `r` with the value of `e`. -/
theorem Expr.eval_arith_eq_ok_iff {new : Value} :
    (Expr.arith r.toExpr a e).eval c = some (.ok new, c) ↔
      ∃ keys old v, Step.evalAll r.steps c = some (.ok keys, c) ∧
        Run.readPath r.root keys c = some (.ok old, c) ∧
        e.eval c = some (.ok v, c) ∧ Value.arith a old v = .ok new := by
  have hread : r.toExpr.eval = Step.evalAll r.steps >>= fun keys => Run.readPath r.root keys :=
    (Expr.eval_toExpr r).trans r.read_eq
  show (r.toExpr.eval >>= fun old => e.eval >>= fun v => Run.ofExcept (Value.arith a old v)) c = _ ↔ _
  simp only [Run.bind_eq_ok_iff_of_keeps hr.eval_keeps, Run.bind_eq_ok_iff_of_keeps he.eval_keeps,
    Run.ofExcept_eq_ok_iff, true_and]
  simp only [hread, Run.bind_eq_ok_iff_of_keeps (Expr.EffectFree.keys_keeps hr)]
  constructor
  · rintro ⟨old, ⟨keys, hkeys, hold⟩, v, hv, hnew⟩
    exact ⟨keys, old, v, hkeys, hold, hv, hnew⟩
  · rintro ⟨keys, old, v, hkeys, hold, hv, hnew⟩
    exact ⟨old, ⟨keys, hkeys, hold⟩, v, hv, hnew⟩

/-- An assignment evaluates the new value and the keys, and then changes the place. -/
theorem Stmt.exec_assign_eq_ok_iff :
    (Stmt.assign r op e).exec c = some (.ok (), d) ↔
      ∃ v keys, e.eval c = some (.ok v, c) ∧ Step.evalAll r.steps c = some (.ok keys, c) ∧
        Run.store r.root keys op v c = some (.ok (), d) := by
  show (e.eval >>= fun v => Step.evalAll r.steps >>= fun keys => Run.store r.root keys op v) c = _ ↔ _
  simp only [Run.bind_eq_ok_iff_of_keeps he.eval_keeps,
    Run.bind_eq_ok_iff_of_keeps (Expr.EffectFree.keys_keeps hr),
    exists_and_left]

/-- An assignment without effects in its parts is done altogether or not at all. -/
theorem Stmt.exec_assign_atomic (op : AssignOp) : Run.Atomic (Stmt.assign r op e).exec := by
  refine Run.Atomic.bind_of_keeps he.eval_keeps fun v => ?_
  exact Run.Atomic.bind_of_keeps (Expr.EffectFree.keys_keeps hr) fun keys =>
    Run.store_atomic r.root keys op v

/-- A compound assignment succeeds if its expansion does, with the same context. -/
theorem Stmt.exec_assign_eq_ok_iff_expansion (hop : op.arith? = some a) :
    (Stmt.assign r op e).exec c = some (.ok (), d) ↔
      (Stmt.assign r .set (.arith r.toExpr a e)).exec c = some (.ok (), d) := by
  rw [Stmt.exec_assign_eq_ok_iff hr he, Stmt.exec_assign_eq_ok_iff hr (hr.arith he a)]
  constructor
  · rintro ⟨v, keys, hv, hkeys, hstore⟩
    obtain ⟨old, new, hold, hnew, hset⟩ := (Run.arithStore_eq_ok_iff hop).mp hstore
    exact ⟨new, keys, (Expr.eval_arith_eq_ok_iff hr he).mpr ⟨keys, old, v, hkeys, hold, hv, hnew⟩,
      hkeys, hset⟩
  · rintro ⟨new, keys, heval, hkeys, hset⟩
    obtain ⟨keys', old, v, hkeys', hold, hv, hnew⟩ := (Expr.eval_arith_eq_ok_iff hr he).mp heval
    -- the keys are evaluated twice, in the same context
    obtain rfl : keys = keys' := by
      rw [hkeys] at hkeys'
      cases hkeys'
      rfl
    exact ⟨v, keys, hv, hkeys, (Run.arithStore_eq_ok_iff hop).mpr ⟨old, new, hold, hnew, hset⟩⟩

/-- A compound assignment and its expansion, if no part of them logs or appends: both succeed and
leave the same context, or both fail and leave the context as it was. -/
theorem Stmt.exec_compound (hop : op.arith? = some a) (c : Context) :
    (∃ d, (Stmt.assign r op e).exec c = some (.ok (), d) ∧
      (Stmt.assign r .set (.arith r.toExpr a e)).exec c = some (.ok (), d)) ∨
    ∃ f g, (Stmt.assign r op e).exec c = some (.error f, c) ∧
      (Stmt.assign r .set (.arith r.toExpr a e)).exec c = some (.error g, c) :=
  Run.Atomic.both (Stmt.exec_assign_atomic hr he op) (Stmt.exec_assign_atomic hr (hr.arith he a) .set)
    (Stmt.assign_ending r op e) (Stmt.assign_ending r .set (.arith r.toExpr a e)) fun _ =>
      Stmt.exec_assign_eq_ok_iff_expansion hr he hop

end expansion

/-- A number in a list inside of a map is increased. -/
theorem Stmt.exec_compound_item :
    let r : Reference := .property "m" [.field "a", .index (.ident "i")]
    let e : Expr := .call "Max" [.lit (.number 1), .ident "i"]
    let c : Context := ⟨[("i", .number 0), ("m", .map [("a", .list [.number 1])])], none, none,
      Log.empty .buffer⟩
    ∃ d, (Stmt.assign r .add e).exec c = some (.ok (), d) ∧
      (Stmt.assign r .set (.arith r.toExpr .add e)).exec c = some (.ok (), d) := by
  intro r e c
  have hsucceeds : ∃ d, (Stmt.assign r .add e).exec c = some (.ok (), d) :=
    ⟨_, by with_unfolding_all rfl⟩
  have hr : r.toExpr.EffectFree := by decide
  have he : e.EffectFree := by decide
  have hop : AssignOp.add.arith? = some .add := rfl
  obtain h | ⟨f, g, hf, -⟩ := Stmt.exec_compound hr he hop c
  · exact h
  · obtain ⟨d, hd⟩ := hsucceeds
    rw [hf] at hd
    cases hd

end Edict

import Edict.Proofs.Run.Frame

/-!
# Runs in parts

A program that is cut in two leads to the same as its two parts, run one after the other.  Between
two runs the loop slot is emptied, between two statements of one run it is not.  So the second part
must not find a value in the slot that the first part has left there, and it does not, unless the
first part assigns to `$val` as a whole outside of loops: every loop puts the slot back, and no
other write fills a slot that is empty.

## Main definitions

* `KeepsEmpty`: if the loop slot was empty, it still is.

## Main statements

* `Stmt.execAll_keepsEmpty`: statements leave an empty slot empty, unless one of them sets `$val` as
  a whole outside of loops.  Inside of loops anything is allowed.
* `Program.run_append`: a run in two parts has the outcome of the run, or has no end if the run has
  none.
-/

namespace Edict

/-! ## The empty slot -/

/-- If the loop slot was empty, it still is. -/
def KeepsEmpty (c d : Context) : Prop := c.loop = none → d.loop = none

/-- Only `$val` is kept in the slot. -/
theorem Context.loop_bind_of_ne {c : Context} {x : String} {v : Value} (h : x ≠ loopName) :
    (c.bind x v).loop = c.loop := by
  unfold Context.bind
  rw [if_neg h]
  rfl

namespace Run

/-- Outside of loops the slot stays empty if each statement by itself leaves it empty. -/
theorem scopeLaw_keepsEmpty : ScopeLaw (Moves KeepsEmpty) fun _ => True where
  toLaw := law_moves (fun _ h => h) fun h k hc => k (h hc)
  each _ _ c r d hd h := (ownLoop_keeps_loop _ c r d hd).trans h
  count limit _ c r d hd h := (count_keeps_loop _ limit c r d hd).trans h

/-- To be changed, `$val` must have a value. -/
theorem update_keepsEmpty (x : String) (change : Value → Except Fault Value) :
    Moves KeepsEmpty (update x change) := by
  intro c r d hd h
  rw [update_apply] at hd
  rcases hold : c.lookup x with _ | old
  · rw [hold] at hd
    cases hd
    exact h
  · have hx : x ≠ loopName := by
      -- an empty slot has no value that could be changed
      rintro rfl
      simp [Context.lookup, h] at hold
    rw [hold] at hd
    dsimp only at hd
    split at hd
    · cases hd
      exact (Context.loop_bind_of_ne hx).trans h
    · cases hd
      exact h

/-- An assignment leaves an empty slot empty, unless it sets `$val` as a whole. -/
theorem store_keepsEmpty (x : String) (keys : List Key) (op : AssignOp) (v : Value)
    (h : keys = [] → op = .set → x ≠ loopName) : Moves KeepsEmpty (store x keys op v) := by
  unfold store
  split
  · exact update_keepsEmpty x _
  · rename_i hkeys
    have hkeys : keys = [] := List.getLast?_eq_none_iff.mp hkeys
    cases op with
    | set =>
        intro c r d hd hc
        cases hd
        exact (Context.loop_bind_of_ne (h hkeys rfl)).trans hc
    | add => exact update_keepsEmpty x _
    | sub => exact update_keepsEmpty x _

end Run

/-- Expressions leave an empty slot empty. -/
theorem Expr.own_keepsEmpty (e : Expr) : e.Own (Run.Moves KeepsEmpty) where
  read root _ := Run.moves_of_keeps (fun _ h => h) (Run.lookup_keeps id root)
  log _ _ _ _ _ h hc := by
    cases h
    exact hc
  node _ id := Run.moves_of_keeps (fun _ h => h) (Run.domainObject_keeps _ _ _ id)
  link _ id := Run.moves_of_keeps (fun _ h => h) (Run.domainObject_keeps _ _ _ id)
  push root _ _ _ := Run.update_keepsEmpty root _

/-- Statements leave an empty slot empty if none of them sets `$val` as a whole outside of loops. -/
theorem Stmt.execAll_keepsEmpty {ss : List Stmt}
    (h : ∀ s ∈ Stmt.outsideAll ss, s.introduced? ≠ some loopName) :
    Run.Moves KeepsEmpty (Stmt.execAll ss) := by
  apply Stmt.execAll_outside Run.scopeLaw_keepsEmpty
  intro s hs
  refine ⟨⟨?_, fun f args _ => Expr.own_keepsEmpty _⟩, fun e _ => e.own_keepsEmpty⟩
  rintro target op value rfl keys v hlength
  apply Run.store_keepsEmpty
  rintro rfl rfl hx
  apply h _ hs
  rw [Stmt.introduced?_of_length value hlength, hx]

/-! ## Programs -/

/-- Statements after statements. -/
theorem Stmt.execAll_append (ss ts : List Stmt) :
    Stmt.execAll (ss ++ ts) = Stmt.execAll ss >>= fun _ => Stmt.execAll ts := by
  induction ss with
  | nil => simp [Stmt.execAll]
  | cons s ss ih => simp [Stmt.execAll, ih]

/-- A program in two parts, of which the first one does not assign to `$val` as a whole outside of
loops, may be run in two runs: its outcome is that of the first part, if that part fails, and else
the one of the second part in the context that the first part leaves. -/
theorem Program.run_append (p q : Program) (c : Context)
    (h : ∀ s ∈ Stmt.outsideAll p, s.introduced? ≠ some loopName) :
    Program.run (p ++ q) c = (p.run c).bind fun o =>
      match o.fault? with
      | none => q.run o.context
      | some _ => some o := by
  unfold Program.run Run.ownLoop
  rw [Stmt.execAll_append, Run.bind_apply]
  rcases hp : Stmt.execAll p { c with loop := none } with _ | ⟨f | ⟨⟨⟩⟩, d⟩
  · rfl
  · rfl
  · -- the second part begins where the first one ends, since there the slot is empty
    have hslot : d.loop = none := Stmt.execAll_keepsEmpty h { c with loop := none } _ d hp rfl
    have hd : ({ d with loop := none } : Context) = d := by rw [← hslot]
    dsimp only [Option.bind_some]
    rw [hd]

/-- The first part loops twice, sets `$val` in its loops and changes a variable in a branch outside
of them; the second part reads what the first one has left. -/
theorem Program.run_append_loops :
    let p : Program := [
      .each (.literals [.text "a", .text "b"]) [
        .assign (.ident "$val") .set (.lit (.text "c")),
        .each (.reference (.ident "l")) [.call "append" [.ident "m", .ident "$val"]]],
      .branch (.ident "m") [.assign (.ident "x") .add (.lit (.text "!"))] none]
    let q : Program := [.assign (.ident "y") .set (.ident "x")]
    let c : Context := ⟨[("l", .list [.text "d"]), ("m", .list []), ("x", .text "e")],
      some (.bool true), none, Log.empty .buffer⟩
    (∀ s ∈ Stmt.outsideAll p, s.introduced? ≠ some loopName) ∧
      ∃ o, p.run c = some o ∧ o.fault? = none ∧ Program.run (p ++ q) c = q.run o.context := by
  intro p q c
  have hp : ∀ s ∈ Stmt.outsideAll p, s.introduced? ≠ some loopName := by decide
  obtain ⟨o, ho, hok⟩ : ∃ o, p.run c = some o ∧ o.fault? = none := ⟨_, rfl, rfl⟩
  have hrun := Program.run_append p q c hp
  rw [ho, Option.bind_some, hok] at hrun
  exact ⟨hp, o, ho, hok, hrun⟩

end Edict

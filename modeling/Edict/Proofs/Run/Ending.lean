import Edict.Proofs.Run.Law

/-!
# What always ends

A run has no end only if a counted loop has none: whatever an expression, an assignment, a call or
the header of a loop does, it comes to a result or to a fault (`Run.Ending`).

## Main statements

* `Run.law_ending`: sequences have an end if their parts have.  This is no law of loops, since it is
  not kept by limits.
* `Expr.eval_ending`, `Source.elements_ending`: what a statement evaluates has an end.
* `Stmt.assign_ending`, `Stmt.call_ending`: so have the statements without a body.
-/

namespace Edict

open Run

namespace Run

/-- A computation that has an end, from every context. -/
def Ending {α : Type} (m : Run α) : Prop := ∀ c, ∃ r d, m c = some (r, d)

/-- A sequence has an end in a context if its first part has, and the second one where the first one
succeeds. -/
theorem bind_ending {α β : Type} {m : Run α} {f : α → Run β} {c : Context}
    (hm : ∃ r d, m c = some (r, d))
    (hf : ∀ a d, m c = some (.ok a, d) → ∃ r e, f a d = some (r, e)) :
    ∃ r e, (m >>= f) c = some (r, e) := by
  rw [bind_apply]
  obtain ⟨g | a, d, hd⟩ := hm
  · exact ⟨.error g, d, by rw [hd]⟩
  · rw [hd]
    exact hf a d hd

/-- Sequences have an end if their parts have. -/
theorem law_ending : Law Ending where
  pure _ c := ⟨_, c, rfl⟩
  throw _ _ c := ⟨_, c, rfl⟩
  bind hm hf c := bind_ending (hm c) fun a d _ => hf a d

/-- Reading a name has an end. -/
theorem lookup_ending (x : String) : Ending (lookup x) := by
  intro c
  rw [lookup_apply]
  split <;> exact ⟨_, _, rfl⟩

/-- Asking the model has an end, as the model itself has one. -/
theorem domainObject_ending (f : Builtin) (find : Model → Value → Option Value) (id : Value) :
    Ending (domainObject f find id) := by
  intro c
  rw [domainObject_apply]
  split <;> exact ⟨_, _, rfl⟩

/-- Changing a variable has an end. -/
theorem update_ending (x : String) (change : Value → Except Fault Value) :
    Ending (update x change) := by
  intro c
  rw [update_apply]
  split
  · exact ⟨_, _, rfl⟩
  · split <;> exact ⟨_, _, rfl⟩

/-- So has an assignment. -/
theorem store_ending (x : String) (keys : List Key) (op : AssignOp) (v : Value) :
    Ending (store x keys op v) := by
  unfold store
  split
  · exact update_ending x _
  · split
    · exact fun _ => ⟨_, _, rfl⟩
    · exact update_ending x _

end Run

/-- What an expression does itself has an end. -/
theorem Expr.own_ending (e : Expr) : e.Own Ending where
  read root _ := lookup_ending root
  log _ _ _ := ⟨_, _, rfl⟩
  node _ := domainObject_ending _ _
  link _ := domainObject_ending _ _
  push root _ _ _ := update_ending root _

/-- What a statement does itself has an end, apart from the statements in it. -/
theorem Stmt.obeys_ending (s : Stmt) : s.Obeys Ending where
  store target op _ _ keys v _ := store_ending target.root keys op v
  call f args _ := (Expr.call f args).own_ending
  terms x _ := x.own_ending

/-- Evaluation has an end. -/
theorem Expr.eval_ending (e : Expr) : Ending e.eval :=
  Expr.eval_law law_ending e fun x _ => x.own_ending

/-- So has finding out what a loop runs through. -/
theorem Source.elements_ending (source : Source) : Ending source.elements :=
  Source.elements_law law_ending (Stmt.each source []).obeys_ending

/-- An assignment has an end. -/
theorem Stmt.assign_ending (target : Reference) (op : AssignOp) (value : Expr) :
    Ending (Stmt.assign target op value).exec :=
  Stmt.assign_law law_ending (Stmt.assign target op value).obeys_ending

/-- So has a call. -/
theorem Stmt.call_ending (f : String) (args : List Expr) : Ending (Stmt.call f args).exec :=
  Stmt.call_law law_ending (Stmt.call f args).obeys_ending

end Edict

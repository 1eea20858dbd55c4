import Edict.Run.Program

/-!
# Computations, step by step

What the steps of programs do to a context, one equation for each, and how a counted loop relates to
its turns.

A computation is a function from a context to a result, or to a fault, and to the context that it
leaves; or it has no end there.  The equations here say which of the three it is, so that no proof
about programs has to look into the monad.

A counted loop is bounded by nothing but its limit, so no induction on its index reaches its end.
`Run.countFor n` is the loop with a bound: it has no end where more than `n` checks of the index
would be needed.  The loop is what these come to (`Run.countFor_approaches`), and what is preserved
by the steps of a loop and by limits holds of the loop.

## Main definitions

* `Run.never`: the computation that has no end.
* `Run.Approaches`: a sequence of computations comes to do what a computation does, at each context
  from some number on.

## Main statements

* `Run.bind_apply`, `Run.lookup_apply`, `Run.domainObject_apply`, `Run.update_apply`: what the steps
  do; and what they did, if there is an outcome (`Run.cases_of_bind`, `Run.ownLoop_eq_some_iff`).
* `Run.countUp_eq`: a counted loop is a turn and the rest of the loop, as long as its index is below
  the limit.
* `Run.countFor_approaches`: it is the limit of the loops with a bound.
* `Program.run_eq_some_iff`: what a program does.
-/

namespace Edict

namespace Run

/-! ## What basic computations do -/

section apply

variable {α β : Type} (x : String) (c : Context)

/-- A sequence runs its second part where the first one ends. -/
theorem bind_apply (m : Run α) (f : α → Run β) :
    (m >>= f) c =
      match m c with
      | some (.ok a, d) => f a d
      | some (.error e, d) => some (.error e, d)
      | none => none := by
  show (ExceptT.bind m f : Run β) c = _
  unfold ExceptT.bind ExceptT.mk
  show StateT.bind (m : StateT Context Option (Except Fault α)) _ c = _
  unfold StateT.bind
  rcases m c with _ | ⟨_ | _, d⟩ <;> rfl

/-- A sequence that has an end fails with its first part, or ends as its second part does. -/
theorem cases_of_bind {m : Run α} {f : α → Run β} {c d : Context} {r : Except Fault β}
    (h : (m >>= f) c = some (r, d)) :
    (∃ g, m c = some (.error g, d) ∧ r = .error g) ∨
      ∃ a e, m c = some (.ok a, e) ∧ f a e = some (r, d) := by
  rw [bind_apply] at h
  rcases hm : m c with _ | ⟨g | a, e⟩
  · rw [hm] at h
    cases h
  · rw [hm] at h
    cases h
    exact .inl ⟨g, rfl, rfl⟩
  · rw [hm] at h
    exact .inr ⟨a, e, rfl, h⟩

/-- A sequence that succeeds has parts that succeed. -/
theorem exists_of_bind_ok {m : Run α} {f : α → Run β} {c d : Context} {b : β}
    (h : (m >>= f) c = some (.ok b, d)) :
    ∃ a e, m c = some (.ok a, e) ∧ f a e = some (.ok b, d) :=
  (cases_of_bind h).resolve_left fun ⟨_, _, hb⟩ => nomatch hb

/-- Of what follows a computation, only the results matter that it can have. -/
theorem bind_congr_of_ok {m : Run α} {f g : α → Run β}
    (h : ∀ c a d, m c = some (.ok a, d) → f a = g a) : m >>= f = m >>= g := by
  funext c
  rw [bind_apply, bind_apply]
  rcases hm : m c with _ | ⟨e | a, d⟩
  · rfl
  · rfl
  · dsimp only
    rw [h c a d hm]

/-- Leaving out the result. -/
theorem discard_eq (m : Run α) : (discard m : Run PUnit) = m >>= fun _ => pure ⟨⟩ :=
  map_eq_pure_bind _ m

/-- There is nothing to leave out if the result says nothing. -/
theorem discard_unit (m : Run Unit) : (discard m : Run PUnit) = m := by
  rw [discard_eq]
  exact bind_pure_unit

/-- A result that does not look at the context leaves it as it is. -/
theorem ofExcept_apply (r : Except Fault α) : ofExcept r c = some (r, c) := by
  cases r <;> rfl

/-- Reading a name. -/
theorem lookup_apply : lookup x c =
    match c.lookup x with
    | some v => some (.ok v, c)
    | none => some (.error (.unbound x), c) := by
  show (match c.lookup x with
    | some v => pure v
    | none => throw (.unbound x) : Run Value) c = _
  cases c.lookup x <;> rfl

/-- Asking the model. -/
theorem domainObject_apply (f : Builtin) (find : Model → Value → Option Value) (id : Value) :
    domainObject f find id c =
      match c.model with
      | some m => some (.ok ((find m id).getD .absent), c)
      | none => some (.error (.missingModel f), c) := by
  show (match c.model with
    | some m => pure ((find m id).getD .absent)
    | none => throw (.missingModel f) : Run Value) c = _
  cases c.model <;> rfl

/-- Changing a variable. -/
theorem update_apply (change : Value → Except Fault Value) :
    update x change c =
      match c.lookup x with
      | none => some (.error (.unbound x), c)
      | some old =>
          match change old with
          | .ok new => some (.ok (), c.bind x new)
          | .error f => some (.error f, c) := by
  unfold update
  rw [bind_apply, lookup_apply]
  rcases c.lookup x with _ | old
  · rfl
  · dsimp only
    rw [bind_apply, ofExcept_apply]
    cases change old <;> rfl

/-- Filling the loop slot. -/
theorem setLoop_apply (v : Value) : setLoop v c = some (.ok (), { c with loop := some v }) := rfl

/-- A computation with a loop slot of its own begins with an empty one and puts the old one back. -/
theorem ownLoop_eq_some_iff {m : Run α} {c d : Context} {r : Except Fault α} :
    ownLoop m c = some (r, d) ↔
      ∃ e, m { c with loop := none } = some (r, e) ∧ d = { e with loop := c.loop } := by
  unfold ownLoop
  rcases m { c with loop := none } with _ | ⟨s, e⟩
  · simp
  · simp [and_assoc, eq_comm]

/-- Giving a name a value changes the variable of that name, or none for `$val`. -/
theorem vars_bind (v : Value) :
    (c.bind x v).vars = if x = loopName then c.vars else Entries.insert x v c.vars := by
  unfold Context.bind
  split <;> rfl

end apply

/-! ## Counted loops and their turns -/

section turns

variable (body : Run Unit) (limit : Float)

/-- The computation that has no end. -/
def never {α : Type} : Run α := fun _ => none

/-- From each context on, all but finitely many of the computations do what the last one does. -/
def Approaches {α : Type} (ms : Nat → Run α) (m : Run α) : Prop :=
  ∀ c, ∃ n, ∀ k ≥ n, ms k c = m c

/-- A counted loop with a bound: it has no end where its index must be checked more than `n`
times. -/
def countFor : Nat → Float → Run Unit
  | 0, _ => never
  | n + 1, index =>
      if index < limit then do
        setLoop (.number index)
        body
        countFor n (index + 1)
      else pure ()

/-- A turn of a loop, and what comes after it. -/
theorem turn_apply (rest : Run Unit) (v : Value) (c : Context) :
    (setLoop v >>= fun _ => body >>= fun _ => rest) c =
      match body { c with loop := some v } with
      | some (.ok _, d) => rest d
      | some (.error f, d) => some (.error f, d)
      | none => none := by
  rw [bind_apply, setLoop_apply]
  dsimp only
  rw [bind_apply]
  rcases body { c with loop := some v } with _ | ⟨_ | _, d⟩ <;> rfl

variable {body} in
/-- If what comes after a turn comes to a result, and what else may come after it comes to the same,
so do the turn and what comes after it. -/
theorem turn_mono {rest rest' : Run Unit} {v : Value} {c : Context}
    {r : Except Fault Unit × Context} (h : ∀ d, rest d = some r → rest' d = some r)
    (hr : (setLoop v >>= fun _ => body >>= fun _ => rest) c = some r) :
    (setLoop v >>= fun _ => body >>= fun _ => rest') c = some r := by
  rw [turn_apply] at hr ⊢
  rcases hbody : body { c with loop := some v } with _ | ⟨f | a, d⟩
  · rw [hbody] at hr
    cases hr
  · rw [hbody] at hr
    exact hr
  · rw [hbody] at hr
    exact h d hr

/-- As long as its index is below the limit, a counted loop has a turn and goes on from the next
index. -/
theorem countUp_eq (index : Float) :
    countUp body limit index =
      if index < limit then
        setLoop (.number index) >>= fun _ => body >>= fun _ => countUp body limit (index + 1)
      else pure () := by
  funext c
  rw [countUp]
  split
  · exact (turn_apply body (countUp body limit (index + 1)) (.number index) c).symm
  · rfl

variable {body limit} {n k : Nat} {index : Float} {c : Context} {r : Except Fault Unit × Context}

/-- What a loop with a bound comes to, it comes to with a larger one. -/
theorem countFor_of_le (h : n ≤ k) (hn : countFor body limit n index c = some r) :
    countFor body limit k index c = some r := by
  induction n generalizing k index c with
  | zero => cases hn
  | succ n ih =>
      obtain ⟨k, rfl⟩ : ∃ k', k = k' + 1 := Nat.exists_eq_add_one_of_ne_zero (by omega)
      rw [countFor] at hn ⊢
      split at hn
      · rename_i hlt
        rw [if_pos hlt]
        exact turn_mono (fun d hd => ih (by omega) hd) hn
      · rename_i hnot
        rw [if_neg hnot]
        exact hn

/-- What a loop with a bound comes to, the loop comes to. -/
theorem countUp_of_countFor (h : countFor body limit n index c = some r) :
    countUp body limit index c = some r := by
  induction n generalizing index c with
  | zero => cases h
  | succ n ih =>
      rw [countFor] at h
      rw [countUp_eq]
      split at h
      · rename_i hlt
        rw [if_pos hlt]
        exact turn_mono (fun d hd => ih hd) h
      · rename_i hnot
        rw [if_neg hnot]
        exact h

/-- What the loop comes to, it comes to within some bound. -/
theorem exists_countFor (h : countUp body limit index c = some r) :
    ∃ n, countFor body limit n index c = some r := by
  refine countUp.partial_correctness body limit
    (fun index c r => ∃ n, countFor body limit n index c = some r) ?_ index c r h
  intro rest ih index c r h
  split at h
  · rename_i hlt
    split at h
    · rename_i d hbody
      obtain ⟨n, hn⟩ := ih _ _ _ h
      refine ⟨n + 1, ?_⟩
      rw [countFor, if_pos hlt, turn_apply, hbody]
      exact hn
    · rename_i f d hbody
      refine ⟨1, ?_⟩
      rw [countFor, if_pos hlt, turn_apply, hbody]
      exact h
    · cases h
  · rename_i hnot
    refine ⟨1, ?_⟩
    rw [countFor, if_neg hnot]
    exact h

variable (body limit index)

/-- The loops with a bound come to do what the loop does. -/
theorem countFor_approaches :
    Approaches (fun n => countFor body limit n index) (countUp body limit index) := by
  intro c
  rcases hend : countUp body limit index c with _ | r
  · -- where the loop has no end, it has none with a bound
    refine ⟨0, fun k _ => ?_⟩
    dsimp only
    rcases hk : countFor body limit k index c with _ | r
    · rfl
    · rw [countUp_of_countFor hk] at hend
      cases hend
  · obtain ⟨n, hn⟩ := exists_countFor hend
    exact ⟨n, fun k hk => countFor_of_le hk hn⟩

end turns

end Run

/-! ## Programs -/

/-- A run is that of the statements, with an empty slot, and the slot is put back. -/
theorem Program.run_eq_some_iff {p : Program} {c : Context} {o : Outcome} :
    p.run c = some o ↔ ∃ r d, Stmt.execAll p { c with loop := none } = some (r, d) ∧
      o = ⟨match r with | .ok _ => none | .error f => some f, { d with loop := c.loop }⟩ := by
  unfold Program.run Run.ownLoop
  rcases Stmt.execAll p { c with loop := none } with _ | ⟨_ | _, d⟩
  · simp
  · simp [and_assoc, eq_comm]
  · simp [and_assoc, eq_comm]

end Edict

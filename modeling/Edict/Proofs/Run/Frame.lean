import Edict.Proofs.Run.LoopSlot

/-!
# What a run leaves alone

A run writes only the variables that the program assigns to or appends to, it unbinds nothing, it
binds only names that the program sets as a whole, it adds to the log and never takes from it, and
it leaves the model alone.  All of this holds however the run ends, in a context with any model.

`Frame` says this of the contexts before and after.  It is reflexive and transitive, so it holds of
a run as soon as it holds of each basic computation (`Run.law_moves`).  Since `APPEND` may be called
anywhere in an expression, what an expression may write is collected from all its parts.

## Main definitions

* `Program.written`, `Program.introduced`: the variables that a program may write, and those that it
  may bind.
* `Frame`: what stays the same between two contexts, given these.

## Main statements

* `Stmt.execAll_moves`: statements stay within the frame of what they write and bind.
* `Program.run_frame`: so do programs.
-/

namespace Edict

/-! ## Targets -/

/-- The variable that a statement writes itself, apart from what it evaluates. -/
def Stmt.target? : Stmt → Option String
  | .assign target _ _ => some target.root
  | .call f args => (Expr.call f args).pushed?
  | _ => none

/-- The variable that a statement may bind: the one that is set as a whole, by an assignment to a
reference without steps. -/
def Stmt.introduced? : Stmt → Option String
  | .assign target .set _ => if target.steps.isEmpty then some target.root else none
  | _ => none

/-- An assignment by `=` along a path without keys sets its root as a whole. -/
theorem Stmt.introduced?_of_length {target : Reference} (value : Expr)
    (h : ([] : List Key).length = target.steps.length) :
    (Stmt.assign target .set value).introduced? = some target.root := by
  have hnil : target.steps = [] := List.eq_nil_of_length_eq_zero h.symm
  exact if_pos (by rw [hnil]; rfl)

namespace Program

/-- The variables that a program may write: the roots of what it assigns to, and the roots of what
it appends to, at any depth. -/
def written (p : Program) : List String :=
  (Stmt.nestedAll p).flatMap fun s => s.target?.toList ++ s.terms.filterMap Expr.pushed?

/-- The variables that a program may bind. -/
def introduced (p : Program) : List String := (Stmt.nestedAll p).filterMap Stmt.introduced?

end Program

/-- What a statement writes itself, it mentions. -/
theorem Stmt.mem_mentions_of_target? {s : Stmt} {x : String} (h : x ∈ s.target?) :
    x ∈ s.mentions := by
  cases s with
  | assign target op value =>
      cases h
      exact Stmt.mem_mentions (Stmt.target_mem_terms target op value) target.root?_toExpr
  | call f args =>
      obtain ⟨e, he, hroot⟩ := Expr.exists_of_pushed? h
      rcases List.mem_cons.mp he with rfl | he
      · cases hroot
      · rw [← Stmt.terms_call f] at he
        exact Stmt.mem_mentions he hroot
  | branch => cases h
  | count => cases h
  | each => cases h

/-- The variables that a program may write occur in it. -/
theorem Program.written_subset_names (p : Program) : p.written ⊆ p.names := by
  intro x hx
  obtain ⟨s, hs, hx⟩ := List.mem_flatMap.mp hx
  apply List.mem_flatMap.mpr
  refine ⟨s, hs, ?_⟩
  rcases List.mem_append.mp hx with hx | hx
  · exact Stmt.mem_mentions_of_target? (Option.mem_toList.mp hx)
  · obtain ⟨e, he, hpushed⟩ := List.mem_filterMap.mp hx
    obtain ⟨y, hy, hroot⟩ := Expr.exists_of_pushed? hpushed
    exact Stmt.mem_mentions (Stmt.terms_subset he hy) hroot

/-- What is set as a whole is written. -/
theorem Stmt.target?_of_introduced? {s : Stmt} {x : String} (h : s.introduced? = some x) :
    s.target? = some x := by
  unfold Stmt.introduced? at h
  split at h
  · split at h
    · exact h
    · cases h
  · cases h

/-! ## Frames -/

/-- What stays the same between two contexts, if only the variables `written` may be written and
only the variables `introduced` may be bound. -/
structure Frame (written introduced : List String) (c d : Context) : Prop where
  kept : ∀ x, x ∉ written ∨ x = loopName → d.get? x = c.get? x
  bound : ∀ x, (c.get? x).isSome → (d.get? x).isSome
  fresh : ∀ x, c.get? x = none → (d.get? x).isSome → x ∈ introduced
  log : c.log.entries <+: d.log.entries
  model : d.model = c.model

namespace Frame

variable {written introduced : List String} {c d e : Context} {x : String}

/-- A context that differs in the loop slot alone. -/
theorem of_vars_eq (hvars : d.vars = c.vars) (hlog : c.log.entries <+: d.log.entries)
    (hmodel : d.model = c.model) : Frame written introduced c d := by
  have hget : ∀ x, d.get? x = c.get? x := fun x => by
    unfold Context.get?
    rw [hvars]
  refine ⟨fun x _ => hget x, fun x hx => ?_, fun x hx hd => ?_, hlog, hmodel⟩
  · rwa [hget x]
  · rw [hget x, hx] at hd
    cases hd

/-- Nothing has changed. -/
theorem refl (c : Context) : Frame written introduced c c :=
  of_vars_eq rfl (List.prefix_refl _) rfl

/-- One change after another. -/
theorem trans (h : Frame written introduced c d) (k : Frame written introduced d e) :
    Frame written introduced c e where
  kept x hx := (k.kept x hx).trans (h.kept x hx)
  bound x hx := k.bound x (h.bound x hx)
  fresh x hc he := by
    -- the name is bound by the first change or by the second one
    by_cases hd : d.get? x = none
    · exact k.fresh x hd he
    · exact h.fresh x hc (Option.isSome_iff_ne_none.mpr hd)
  log := h.log.trans k.log
  model := k.model.trans h.model

/-- Another value of the loop slot. -/
theorem setLoop (v : Option Value) : Frame written introduced c { c with loop := v } :=
  of_vars_eq rfl (List.prefix_refl _) rfl

/-- One more value in the log. -/
theorem send (v : Value) : Frame written introduced c { c with log := c.log.send v } := by
  refine of_vars_eq rfl ?_ rfl
  have hsent : (c.log.send v).sent.toList = c.log.sent.toList ++ [v] := Array.toList_push
  have hsink : (c.log.send v).sink = c.log.sink := rfl
  show c.log.entries <+: (c.log.send v).entries
  unfold Log.entries
  rw [hsink]
  cases c.log.sink with
  | buffer => exact ⟨[v], hsent.symm⟩
  | _ => exact List.prefix_refl _

/-- Another value of a variable, which is bound or may be. -/
theorem bind (hx : x ∈ written) (v : Value)
    (hfresh : x ∈ introduced ∨ (c.lookup x).isSome) : Frame written introduced c (c.bind x v) := by
  unfold Context.bind
  split
  · exact setLoop (some v)
  · rename_i hne
    have hget : ∀ y, (c.set x v).get? y = if x = y then some v else c.get? y :=
      fun y => Entries.find?_insert x v c.vars y
    refine ⟨fun y hy => ?_, fun y hy => ?_, fun y hc hd => ?_, List.prefix_refl _, rfl⟩
    · have hxy : x ≠ y := by
        rintro rfl
        exact hy.elim (fun hy => hy hx) hne
      rw [hget, if_neg hxy]
    · rw [hget]
      split
      · rfl
      · exact hy
    · by_cases hxy : x = y
      · subst hxy
        refine hfresh.resolve_right fun hbound => ?_
        unfold Context.lookup at hbound
        rw [if_neg hne, hc] at hbound
        cases hbound
      · rw [hget, if_neg hxy, hc] at hd
        cases hd

end Frame

/-! ## Computations -/

namespace Run

variable {written introduced : List String} {x : String}

/-- Loops stay within the frame of their bodies. -/
theorem loopLaw_frame : LoopLaw (Moves (Frame written introduced)) :=
  loopLaw_moves Frame.refl Frame.trans fun _ v => Frame.setLoop v

/-- Changing a variable binds nothing. -/
theorem update_moves (hx : x ∈ written) (change : Value → Except Fault Value) :
    Moves (Frame written introduced) (update x change) := by
  intro c r d h
  rw [update_apply] at h
  rcases hold : c.lookup x with _ | old
  · rw [hold] at h
    cases h
    exact Frame.refl c
  · rw [hold] at h
    dsimp only at h
    split at h
    · cases h
      exact Frame.bind hx _ (.inr (by rw [hold]; rfl))
    · cases h
      exact Frame.refl c

/-- An assignment binds its target only if that is set as a whole. -/
theorem store_moves (hx : x ∈ written) (keys : List Key) (op : AssignOp) (v : Value)
    (hfresh : keys = [] → op = .set → x ∈ introduced) :
    Moves (Frame written introduced) (store x keys op v) := by
  unfold store
  split
  · exact update_moves hx _
  · rename_i hkeys
    have hkeys : keys = [] := List.getLast?_eq_none_iff.mp hkeys
    cases op with
    | set =>
        intro c r d h
        cases h
        exact Frame.bind hx v (.inl (hfresh hkeys rfl))
    | add => exact update_moves hx _
    | sub => exact update_moves hx _

end Run

/-! ## Programs -/

/-- What an expression does itself stays within a frame that has the list it pushes onto. -/
theorem Expr.own_moves {written introduced : List String} {e : Expr}
    (h : ∀ root ∈ e.pushed?, root ∈ written) : e.Own (Run.Moves (Frame written introduced)) where
  read root _ := Run.moves_of_keeps Frame.refl (Run.lookup_keeps id root)
  log _ v _ _ _ h := by
    cases h
    exact Frame.send v
  node _ id := Run.moves_of_keeps Frame.refl (Run.domainObject_keeps _ _ _ id)
  link _ id := Run.moves_of_keeps Frame.refl (Run.domainObject_keeps _ _ _ id)
  push root hroot _ _ := Run.update_moves (h root hroot) _

/-- Statements stay within the frame of what they write and bind. -/
theorem Stmt.execAll_moves {written introduced : List String} (ss : List Stmt)
    (hwritten : ∀ x ∈ Program.written ss, x ∈ written)
    (hintroduced : ∀ x ∈ Program.introduced ss, x ∈ introduced) :
    Run.Moves (Frame written introduced) (Stmt.execAll ss) := by
  refine Stmt.execAll_law Run.loopLaw_frame ss fun s hs => ?_
  have htarget : ∀ x ∈ s.target?, x ∈ written := by
    intro x hx
    refine hwritten x (List.mem_flatMap.mpr ⟨s, hs, List.mem_append_left _ ?_⟩)
    exact Option.mem_toList.mpr hx
  have hpushed : ∀ e ∈ s.terms, ∀ x ∈ e.pushed?, x ∈ written := by
    intro e he x hx
    refine hwritten x (List.mem_flatMap.mpr ⟨s, hs, List.mem_append_right _ ?_⟩)
    exact List.mem_filterMap.mpr ⟨e, he, hx⟩
  refine ⟨⟨?_, ?_⟩, fun e he => Expr.own_moves (hpushed e he)⟩
  · rintro target op value rfl keys v hlength
    refine Run.store_moves (htarget _ rfl) keys op v fun hkeys hop => ?_
    subst hkeys hop
    exact hintroduced _ (List.mem_filterMap.mpr ⟨_, hs, Stmt.introduced?_of_length value hlength⟩)
  · rintro f args rfl
    exact Expr.own_moves htarget

/-- However a run ends, a variable that is neither assigned nor appended to stays as it is, and so
does a host variable `$val`; no variable is unbound, and only variables that are set as a whole are
newly bound; nothing is taken from the log, and the model stays the same. -/
theorem Program.run_frame (p : Program) (c : Context) (o : Outcome) (h : p.run c = some o) :
    (∀ x, x ∉ p.written ∨ x = loopName → o.context.get? x = c.get? x) ∧
    (∀ x, (c.get? x).isSome → (o.context.get? x).isSome) ∧
    (∀ x, c.get? x = none → (o.context.get? x).isSome → x ∈ p.introduced) ∧
    c.log.entries <+: o.context.log.entries ∧
    o.context.model = c.model := by
  obtain ⟨r, d, hd, rfl⟩ := Program.run_eq_some_iff.mp h
  have hstart : Frame p.written p.introduced c { c with loop := none } := Frame.setLoop none
  have hrun : Frame p.written p.introduced { c with loop := none } d :=
    Stmt.execAll_moves p (fun _ hx => hx) (fun _ hx => hx) _ r d hd
  have hframe := (hstart.trans hrun).trans (Frame.setLoop c.loop)
  exact ⟨hframe.kept, hframe.bound, hframe.fresh, hframe.log, hframe.model⟩

/-- An item is appended inside an index, and a field is set of a variable that has no value, which
fails and binds nothing. -/
theorem Program.run_frame_failing :
    let p : Program := [
      .assign (.property "m" [.index (.call "append" [.ident "l", .lit (.text "a")])]) .set
        (.lit (.text "b")),
      .assign (.property "n" [.field "k"]) .set (.lit (.text "c"))]
    let c : Context := ⟨[("l", .list []), ("m", .map []), ("x", .bool true)], none, none,
      Log.empty .buffer⟩
    p.written = ["m", "l", "n"] ∧ p.introduced = [] ∧
      ∃ o, p.run c = some o ∧ o.fault?.isSome ∧ o.context.get? "x" = some (.bool true) ∧
        (o.context.get? "l").isSome ∧ ¬(o.context.get? "n").isSome := by
  intro p c
  have hwritten : p.written = ["m", "l", "n"] := by decide
  have hintroduced : p.introduced = [] := by decide
  obtain ⟨o, ho, hfault⟩ : ∃ o, p.run c = some o ∧ o.fault?.isSome := ⟨_, rfl, rfl⟩
  obtain ⟨hkept, hbound, hfresh, -, -⟩ := Program.run_frame p c o ho
  refine ⟨hwritten, hintroduced, o, ho, hfault, hkept "x" (.inl ?_), hbound "l" rfl, fun hn => ?_⟩
  · rw [hwritten]
    decide
  · have hmem := hfresh "n" rfl hn
    rw [hintroduced] at hmem
    cases hmem

end Edict

import Edict.Proofs.Run.LoopSlot
import Edict.Proofs.Run.Trace

/-!
# What is left of a run that faults

If `APPEND` occurs only as a statement, a run changes variables by completed assignments and
completed calls of `APPEND`, and by nothing else.  The event that faults has changed none, so what
is left is what the completed ones wrote.

The proof follows the trace: `Completed` says what a list of events without a fault does to the
variables, `Accounts` adds the event that faults, and every way of putting computations together
preserves it.

## Main definitions

* `Run.Atomic`: a computation that leaves the context as it is when it fails.
* `Action.Honest`: an action that changes the variables by its own write alone, and not at all when
  it fails.
* `Accounts`, `Traced.Faithful`: the events of a computation account for the variables at its end.

## Main statements

* `Action.honest`: actions are honest if `APPEND` is not called in what they evaluate.
* `Stmt.trace_faithful`: statements are accounted for by their events, if that holds of all
  statements in them.
* `Program.fault_writes`: what a run that faults has done.  Nothing is said of a run that succeeds,
  and nothing of the loop slot but that it is put back.
-/

namespace Edict

/-! ## Writing -/

namespace Run

variable {c d : Context}

/-- A computation that leaves the context as it is when it fails. -/
def Atomic {α : Type} (m : Run α) : Prop := ∀ c f d, m c = some (.error f, d) → d = c

/-- A change of a variable is done altogether or not at all. -/
theorem update_atomic (x : String) (change : Value → Except Fault Value) :
    Atomic (update x change) := by
  intro c f d h
  rw [update_apply] at h
  split at h
  · cases h
    rfl
  · split at h <;> cases h
    rfl

/-- So is an assignment. -/
theorem store_atomic (x : String) (keys : List Key) (op : AssignOp) (v : Value) :
    Atomic (store x keys op v) := by
  unfold store
  split
  · exact update_atomic x _
  · split
    · intro c f d h
      cases h
    · exact update_atomic x _

/-- The variables that a computation leaves. -/
def vars? {α : Type} (m : Run α) (c : Context) : Option (List (String × Value)) :=
  (m c).map (·.2.vars)

/-- The variables after a write depend on those before alone. -/
theorem vars?_update (x : String) (change : Value → Except Fault Value) (h : c.vars = d.vars) :
    (update x change).vars? c = (update x change).vars? d := by
  by_cases hx : x = loopName
  · -- writes to `$val` change no variable
    have hsame : ∀ c, (update x change).vars? c = some c.vars := by
      intro c
      unfold vars?
      rw [update_apply]
      split
      · rfl
      · split
        · exact congrArg some ((vars_bind x c _).trans (if_pos hx))
        · rfl
    rw [hsame, hsame, h]
  · have hlookup : c.lookup x = d.lookup x := by
      unfold Context.lookup Context.get?
      rw [if_neg hx, if_neg hx, h]
    unfold vars?
    rw [update_apply, update_apply, hlookup]
    rcases d.lookup x with _ | old
    · exact congrArg some h
    · dsimp only
      rcases change old with f | new
      · exact congrArg some h
      · show some (c.bind x new).vars = some (d.bind x new).vars
        rw [vars_bind, vars_bind, h]

end Run

/-- A write is done altogether or not at all. -/
theorem Write.atomic (w : Write) : Run.Atomic w.run := by
  cases w with
  | assign root keys op v => exact Run.store_atomic root keys op v
  | push root keys v => exact Run.update_atomic root _

/-- The variables after a write depend on those before alone. -/
theorem Write.vars?_run (w : Write) {c d : Context} (h : c.vars = d.vars) :
    w.run.vars? c = w.run.vars? d := by
  cases w with
  | push root keys v => exact Run.vars?_update root _ h
  | assign root keys op v =>
      show (Run.store root keys op v).vars? c = (Run.store root keys op v).vars? d
      unfold Run.store
      split
      · exact Run.vars?_update root _ h
      · split
        · show some (c.bind root v).vars = some (d.bind root v).vars
          rw [Run.vars_bind, Run.vars_bind, h]
        · exact Run.vars?_update root _ h

/-- A single write is replayed by doing it. -/
theorem Write.replay_singleton {w : Write} {c d : Context} {r : Except Fault Unit}
    (h : w.run c = some (r, d)) : Write.replay [w] c.vars = d.vars := by
  have hsame : w.run.vars? ⟨c.vars, none, none, Log.empty .silent⟩ = w.run.vars? c := w.vars?_run rfl
  have hvars : w.run.vars? c = some d.vars := by
    unfold Run.vars?
    rw [h]
    rfl
  rw [← hsame] at hvars
  obtain ⟨⟨r', d'⟩, hrun, hd'⟩ := Option.map_eq_some_iff.mp hvars
  show Write.apply c.vars w = d.vars
  unfold Write.apply
  rw [hrun]
  exact hd'

/-- Writes are replayed one part after the other. -/
theorem Write.replay_append (ws ws' : List Write) (vars : List (String × Value)) :
    Write.replay (ws ++ ws') vars = Write.replay ws' (Write.replay ws vars) :=
  List.foldl_append

/-! ## Expressions without `APPEND` -/

/-- Where `APPEND` is not called, nothing is pushed. -/
theorem Expr.pushed?_of_appendFree {e x : Expr} (h : e.AppendFree) (hx : x ∈ e.subterms) :
    x.pushed? = none := by
  have hne := h x hx
  unfold Expr.pushed?
  split
  · exact if_neg hne
  · rfl

/-- What stands in an expression without `APPEND` changes no variables by itself. -/
theorem Expr.own_keeps_vars {e x : Expr} (h : e.AppendFree) (hx : x ∈ e.subterms) :
    x.Own (Run.Keeps Context.vars) := by
  refine Expr.own_keeps (fun _ _ => rfl) fun root hroot => ?_
  rw [Expr.pushed?_of_appendFree h hx] at hroot
  cases hroot

/-- The value of an expression without `APPEND` changes no variables. -/
theorem Expr.eval_keeps_vars {e : Expr} (h : e.AppendFree) : Run.Keeps Context.vars e.eval :=
  Expr.eval_law (Run.law_keeps _) e fun _ hx => Expr.own_keeps_vars h hx

/-- The keys of a path without `APPEND` change no variables. -/
theorem Reference.evalAll_keeps_vars {r : Reference} (h : r.toExpr.AppendFree) :
    Run.Keeps Context.vars (Step.evalAll r.steps) :=
  Step.evalAll_law (Run.law_keeps _) r.steps fun _ hx =>
    Expr.own_keeps_vars h (r.subtermsAll_steps_subset hx)

/-- The keys of a place without `APPEND` change no variables. -/
theorem Expr.place_keeps_vars {e : Expr} (h : e.AppendFree) :
    ∀ place ∈ e.place?, Run.Keeps Context.vars place.2 :=
  Expr.place_law (Run.law_keeps _) e fun _ hx => Expr.own_keeps_vars h hx

/-- The arguments of a call without `APPEND` change no variables. -/
theorem Expr.arguments_keep_vars {args : List Expr} (h : ∀ e ∈ args, e.AppendFree) :
    ∀ a ∈ Expr.arguments args, Run.Keeps Context.vars a.value ∧
      ∀ place ∈ a.place?, Run.Keeps Context.vars place.2 := by
  refine Expr.arguments_law (Run.law_keeps _) args fun x hx => ?_
  rw [Expr.subtermsAll_eq] at hx
  obtain ⟨e, he, hx⟩ := List.mem_flatMap.mp hx
  exact Expr.own_keeps_vars (h e he) hx

/-! ## Actions -/

/-- An action that fails leaves the variables as they were, and one that succeeds has done its
write, if it has one. -/
def Action.Honest (a : Action) : Prop :=
  ∀ c r d, a.run c = some (r, d) →
    match r with
    | .ok _ => d.vars = Write.replay (Event.write? ⟨a, c⟩).toList c.vars
    | .error _ => d.vars = c.vars

/-- An action that keeps the variables and writes nothing. -/
theorem Action.honest_of_keeps {a : Action} (h : Run.Keeps Context.vars a.run)
    (hw : a.resolve = pure none) : a.Honest := by
  intro c r d hrun
  have hwrite : Event.write? ⟨a, c⟩ = none := by
    unfold Event.write?
    rw [hw]
    rfl
  rw [hwrite]
  cases r <;> exact h c _ d hrun

/-- An action that evaluates what it needs, without changing variables, and then writes. -/
theorem Action.honest_of_write {α : Type} {a : Action} {m : Run α} {w : α → Write}
    (hm : Run.Keeps Context.vars m) (hrun : a.run = m >>= fun r => (w r).run)
    (hresolve : a.resolve = m >>= fun r => pure (some (w r))) : a.Honest := by
  intro c r d hd
  rw [hrun] at hd
  obtain ⟨g, hg, rfl⟩ | ⟨x, e, hx, hend⟩ := Run.cases_of_bind hd
  · exact hm c _ d hg
  · have hkept : e.vars = c.vars := hm c _ e hx
    cases r with
    | ok _ =>
        have hwrite : Event.write? ⟨a, c⟩ = some (w x) := by
          unfold Event.write?
          dsimp only
          rw [hresolve, Run.bind_apply, hx]
          rfl
        show d.vars = _
        rw [hwrite, ← hkept]
        exact (Write.replay_singleton hend).symm
    | error f =>
        obtain rfl := (w x).atomic e f d hend
        exact hkept

/-- An assignment is honest. -/
theorem Action.honest_assign {target : Reference} {op : AssignOp} {value : Expr}
    (htarget : target.toExpr.AppendFree) (hvalue : value.AppendFree) :
    (Action.assign target op value).Honest := by
  refine Action.honest_of_write (m := do
      let v ← value.eval
      let keys ← Step.evalAll target.steps
      return (v, keys)) (w := fun r => .assign target.root r.2 op r.1) ?_ ?_ ?_
  · have law := Run.law_keeps Context.vars
    exact law.bind (Expr.eval_keeps_vars hvalue) fun _ =>
      law.bind (Reference.evalAll_keeps_vars htarget) fun _ => law.pure _
  · simp only [bind_assoc, pure_bind]
    rfl
  · simp only [bind_assoc, pure_bind]
    rfl

/-- A call of `APPEND` on a place evaluates the item and the keys, and then changes the place. -/
theorem Stmt.exec_push {f : String} (hf : Builtin.ofName? f = some .append) {target : Expr}
    {root : String} {path : Run (List Key)} (hplace : target.place? = some (root, path))
    (item : Expr) :
    (Stmt.call f [target, item]).exec =
      item.eval >>= fun v => path >>= fun keys => Run.update root (Value.append v keys) := by
  show discard (Builtin.call f (Expr.arguments [target, item])) = _
  unfold Builtin.call
  rw [hf, Run.discard_eq]
  show ((Builtin.push ⟨target.eval, target.place?⟩ ⟨item.eval, item.place?⟩ >>=
    fun _ => pure Value.absent) >>= fun _ => pure PUnit.unit) = _
  unfold Builtin.push
  rw [hplace]
  simp only [bind_assoc, pure_bind, bind_pure_unit]

/-- A call of `APPEND` on a place is honest. -/
theorem Action.honest_push {f root : String} {target item : Expr} {path : Run (List Key)}
    (hf : Builtin.ofName? f = some .append) (hplace : target.place? = some (root, path))
    (htarget : target.AppendFree) (hitem : item.AppendFree) :
    (Action.call f [target, item]).Honest := by
  refine Action.honest_of_write (m := do
      let v ← item.eval
      let keys ← path
      return (v, keys)) (w := fun r => .push root r.2 r.1) ?_ ?_ ?_
  · have law := Run.law_keeps Context.vars
    exact law.bind (Expr.eval_keeps_vars hitem) fun _ =>
      law.bind (Expr.place_keeps_vars htarget _ hplace) fun _ => law.pure _
  · simp only [bind_assoc, pure_bind]
    exact Stmt.exec_push hf hplace item
  · simp only [bind_assoc, pure_bind]
    dsimp only [Action.resolve]
    rw [hf]
    dsimp only
    rw [hplace]

/-- Any other call is honest: it changes no variables. -/
theorem Action.honest_call {f : String} {args : List Expr} (hargs : ∀ e ∈ args, e.AppendFree)
    (h : ∀ target item, Builtin.ofName? f = some .append → args = [target, item] →
      target.place? = none) :
    (Action.call f args).Honest := by
  refine Action.honest_of_keeps ?_ ?_
  · have law := Run.law_keeps Context.vars
    have hlog (v : Value) : Run.Keeps Context.vars (Run.log v) := by
      intro c r d h
      cases h
      rfl
    refine law.discard (Builtin.call_law law (Expr.arguments_keep_vars hargs) (fun _ => hlog)
      (fun _ => Run.domainObject_keeps _ _ _) (fun _ => Run.domainObject_keeps _ _ _) ?_)
    intro happend target item hargs place hplace
    rcases args with _ | ⟨e, _ | ⟨e', _ | _⟩⟩ <;> cases hargs
    rw [h e e' happend rfl] at hplace
    cases hplace
  · dsimp only [Action.resolve]
    split
    · rename_i target item hf
      rw [h target item hf rfl]
    · rfl

/-- Actions are honest if `APPEND` is not called in what they evaluate. -/
theorem Action.honest (a : Action) (h : ∀ e ∈ a.operands, e.AppendFree) : a.Honest := by
  have law := Run.law_keeps Context.vars
  cases a with
  | assign target op value =>
      exact Action.honest_assign (h _ List.mem_cons_self)
        (h _ (List.mem_cons_of_mem _ List.mem_cons_self))
  | call f args =>
      by_cases hpush : ∃ target item place, Builtin.ofName? f = some .append ∧
          args = [target, item] ∧ target.place? = some place
      · obtain ⟨target, item, place, hf, rfl, hplace⟩ := hpush
        exact Action.honest_push hf hplace (h _ List.mem_cons_self)
          (h _ (List.mem_cons_of_mem _ List.mem_cons_self))
      · refine Action.honest_call h fun target item hf hargs => ?_
        exact Option.eq_none_iff_forall_ne_some.mpr fun place hplace =>
          hpush ⟨target, item, place, hf, hargs, hplace⟩
  | condition e =>
      exact Action.honest_of_keeps (law.discard (Expr.eval_keeps_vars (h e List.mem_cons_self))) rfl
  | limit e =>
      refine Action.honest_of_keeps (law.discard ?_) rfl
      refine law.bind (Expr.eval_keeps_vars (h e List.mem_cons_self)) fun v => ?_
      cases v <;> first | exact law.pure _ | exact law.throw _ (Fault.wrongKind_immediate _ _ _)
  | source s =>
      refine Action.honest_of_keeps (law.discard ?_) rfl
      refine Source.elements_law_of_eval law fun place hs => ?_
      subst hs
      exact Expr.eval_keeps_vars (h place.toExpr List.mem_cons_self)

/-! ## Events and traces -/

namespace Event

variable {e : Event} {d : Context}

/-- An event that succeeds. -/
theorem of_ok (h : e.action.run e.before = some (.ok ⟨⟩, d)) :
    e.after? = some d ∧ e.fault? = none := by
  unfold after? fault?
  rw [h]
  exact ⟨rfl, rfl⟩

/-- An event that faults. -/
theorem of_error {f : Fault} (h : e.action.run e.before = some (.error f, d)) :
    e.after? = some d ∧ e.fault? = some f := by
  unfold after? fault?
  rw [h]
  exact ⟨rfl, rfl⟩

end Event

/-- Events without a fault, one after the other, and what they make of the variables. -/
inductive Completed : List (String × Value) → List Event → List (String × Value) → Prop
  | nil {vars : List (String × Value)} : Completed vars [] vars
  | cons {e : Event} {after : Context} {es : List Event} {vars : List (String × Value)} :
      e.fault? = none → e.after? = some after →
      after.vars = Write.replay e.write?.toList e.before.vars →
      Completed after.vars es vars → Completed e.before.vars (e :: es) vars

namespace Completed

variable {es es' : List Event} {vars vars' vars'' : List (String × Value)}

/-- Events after events. -/
theorem append (h : Completed vars es vars') (k : Completed vars' es' vars'') :
    Completed vars (es ++ es') vars'' := by
  induction h with
  | nil => exact k
  | cons hfault hafter hwrite _ ih => exact .cons hfault hafter hwrite (ih k)

/-- What the events make of the variables is what their writes make of them. -/
theorem vars_eq (h : Completed vars es vars') :
    vars' = Write.replay (es.filterMap Event.write?) vars := by
  induction h with
  | nil => rfl
  | @cons e after es vars hfault hafter hwrite _ ih =>
      have hsplit : (e :: es).filterMap Event.write? =
          e.write?.toList ++ es.filterMap Event.write? := by
        rw [List.filterMap_cons]
        cases e.write? <;> rfl
      rw [hsplit, Write.replay_append, ← hwrite]
      exact ih

/-- None of the events faults. -/
theorem fault?_eq_none (h : Completed vars es vars') : ∀ e ∈ es, e.fault? = none := by
  induction h with
  | nil =>
      intro e he
      cases he
  | cons hfault _ _ _ ih =>
      intro e he
      rcases List.mem_cons.mp he with rfl | he
      · exact hfault
      · exact ih e he

end Completed

/-- A list of events accounts for the variables at the end: all are completed if there is no fault;
if there is one, the last event faults with it and leaves the variables as they are, and but for the
loop slot nothing happens after it. -/
inductive Accounts {α : Type} (vars : List (String × Value)) :
    List Event × Except Fault α × Context → Prop
  | ok {es : List Event} {a : α} {d : Context} : Completed vars es d.vars →
      Accounts vars (es, .ok a, d)
  | error {es : List Event} {f : Fault} {d : Context} (last : Event) (after : Context) :
      Completed vars es last.before.vars → last.fault? = some f → last.after? = some after →
      after.vars = last.before.vars → (∃ v, d = { after with loop := v }) →
      Accounts vars (es ++ [last], .error f, d)

/-- What follows completed events is accounted for together with them. -/
theorem Accounts.after {α : Type} {vars vars' : List (String × Value)} {es : List Event}
    {t : List Event × Except Fault α × Context} (h : Completed vars es vars')
    (ht : Accounts vars' t) : Accounts vars (es ++ t.1, t.2) := by
  cases ht with
  | ok hes => exact .ok (h.append hes)
  | error last after hes hlast hafter hkeep hend =>
      show Accounts vars (es ++ (_ ++ [last]), _)
      rw [← List.append_assoc]
      exact .error last after (h.append hes) hlast hafter hkeep hend

/-- The events of a traced computation account for the variables, if it has an end. -/
def Traced.Faithful {α : Type} (m : Traced α) : Prop := ∀ c t, m c = some t → Accounts c.vars t

namespace Traced

variable {α β : Type}

/-- A result alone is accounted for by no events. -/
theorem faithful_pure (a : α) : Faithful (pure a : Traced α) := by
  intro c t h
  cases h
  exact .ok .nil

/-- Sequences are accounted for by their parts. -/
theorem Faithful.bind {m : Traced α} {f : α → Traced β} (hm : m.Faithful)
    (hf : ∀ a, (f a).Faithful) : (m >>= f).Faithful := by
  intro c t h
  rw [bind_apply] at h
  rcases hmc : m c with _ | ⟨es, g | a, d⟩
  · rw [hmc] at h
    cases h
  · rw [hmc] at h
    cases h
    cases hm c _ hmc with
    | error last after hes hlast hafter hkeep hend =>
        exact .error last after hes hlast hafter hkeep hend
  · rw [hmc] at h
    obtain ⟨u, hu, h⟩ := Option.bind_eq_some_iff.mp h
    cases h
    cases hm c _ hmc with
    | ok hes => exact .after hes (hf a d u hu)

/-- An action that is honest accounts for itself. -/
theorem faithful_perform {a : Action} {m : Run α} (ha : a.Honest) (hrun : a.run = discard m) :
    (perform a m).Faithful := by
  intro c t h
  obtain ⟨⟨r, d⟩, hmc, rfl⟩ := Option.map_eq_some_iff.mp h
  have hstart : a.run c = some (r.map fun _ => ⟨⟩, d) := by
    rw [hrun, Run.discard_eq, Run.bind_apply, hmc]
    cases r <;> rfl
  have hc := ha c _ d hstart
  cases r with
  | ok x =>
      obtain ⟨hafter, hfault⟩ := Event.of_ok (e := ⟨a, c⟩) hstart
      exact .ok (.cons (e := ⟨a, c⟩) hfault hafter hc .nil)
  | error f =>
      obtain ⟨hafter, hfault⟩ := Event.of_error (e := ⟨a, c⟩) hstart
      exact .error ⟨a, c⟩ d .nil hfault hafter hc ⟨d.loop, rfl⟩

/-- With a loop slot of its own, a computation has the same account. -/
theorem Faithful.ownLoop {m : Traced α} (hm : m.Faithful) : (ownLoop m).Faithful := by
  intro c t h
  unfold Traced.ownLoop at h
  rcases hmc : m { c with loop := none } with _ | ⟨es, r, d⟩
  · rw [hmc] at h
    cases h
  · rw [hmc] at h
    cases h
    cases hm _ _ hmc with
    | ok hes => exact .ok hes
    | error last after hes hlast hafter hkeep hend =>
        obtain ⟨v, rfl⟩ := hend
        exact .error last after hes hlast hafter hkeep ⟨c.loop, rfl⟩

/-- What is no event and changes no variables needs no account. -/
theorem faithful_setLoop (v : Value) : (silent (Run.setLoop v)).Faithful := by
  intro c t h
  cases h
  exact .ok .nil

/-- Loops over values are accounted for by their turns. -/
theorem Faithful.forEach {body : Traced Unit} (h : body.Faithful) (vs : List Value) :
    (forEach body vs).Faithful := by
  induction vs with
  | nil => exact faithful_pure ()
  | cons v vs ih => exact (faithful_setLoop v).bind fun _ => h.bind fun _ => ih

/-- Counted loops are accounted for by their turns, if they have an end. -/
theorem Faithful.countUp {body : Traced Unit} (h : body.Faithful) (limit index : Float) :
    Faithful (countUp body limit index) := by
  intro c t ht
  refine countUp.partial_correctness body limit (fun _ c t => Accounts c.vars t) ?_ index c t ht
  intro rest ih index c t ht
  split at ht
  · split at ht
    · rename_i es d hbody
      obtain ⟨u, hu, ht⟩ := Option.bind_eq_some_iff.mp ht
      cases ht
      cases h _ _ hbody with
      | ok hes => exact .after hes (ih _ d u hu)
    · rename_i es g d hbody
      cases ht
      have hstop := h _ _ hbody
      exact hstop
    · cases ht
  · cases ht
    exact .ok .nil

/-- Counted loops are accounted for from their beginning. -/
theorem Faithful.count {body : Traced Unit} (h : body.Faithful) (limit : Float) :
    (count body limit).Faithful := by
  unfold Traced.count
  split
  · exact (h.countUp limit 0).ownLoop
  · exact faithful_pure ()

end Traced

/-! ## Programs -/

mutual

/-- A statement is accounted for by its events if `APPEND` is not called in what any statement in it
evaluates. -/
theorem Stmt.trace_faithful : ∀ s : Stmt,
    (∀ t ∈ s.nested, ∀ e ∈ t.operands, e.AppendFree) → s.trace.Faithful
  | .assign target op value, h =>
      Traced.faithful_perform (Action.honest _ (h _ List.mem_cons_self)) (Run.discard_unit _).symm
  | .branch c t none, h => by
      obtain ⟨hown, ht⟩ := List.forall_mem_cons.mp h
      refine (Traced.faithful_perform (Action.honest (.condition c) hown) rfl).bind fun v => ?_
      split
      · exact Stmt.traceAll_faithful t ht
      · exact Traced.faithful_pure ()
  | .branch c t (some e), h => by
      obtain ⟨hown, hbodies⟩ := List.forall_mem_cons.mp h
      obtain ⟨ht, he⟩ := List.forall_mem_append.mp hbodies
      refine (Traced.faithful_perform (Action.honest (.condition c) hown) rfl).bind fun v => ?_
      split
      · exact Stmt.traceAll_faithful t ht
      · exact Stmt.traceAll_faithful e he
  | .count limit body, h => by
      obtain ⟨hown, hbody⟩ := List.forall_mem_cons.mp h
      refine (Traced.faithful_perform (Action.honest (.limit limit) hown) rfl).bind fun n => ?_
      exact (Stmt.traceAll_faithful body hbody).count n
  | .each source body, h => by
      obtain ⟨hown, hbody⟩ := List.forall_mem_cons.mp h
      have hsource : (Action.source source).Honest := by
        refine Action.honest _ fun e he => hown e ?_
        cases source <;> exact he
      refine (Traced.faithful_perform hsource rfl).bind fun items => ?_
      exact ((Stmt.traceAll_faithful body hbody).forEach items).ownLoop
  | .call f args, h =>
      Traced.faithful_perform (Action.honest _ (h _ List.mem_cons_self)) (Run.discard_unit _).symm

/-- The same for statements in order. -/
theorem Stmt.traceAll_faithful : ∀ ss : List Stmt,
    (∀ t ∈ Stmt.nestedAll ss, ∀ e ∈ t.operands, e.AppendFree) → (Stmt.traceAll ss).Faithful
  | [], _ => Traced.faithful_pure ()
  | s :: ss, h => by
      obtain ⟨hs, hss⟩ := List.forall_mem_append.mp h
      exact (Stmt.trace_faithful s hs).bind fun _ => Stmt.traceAll_faithful ss hss

end

/-- A run that faults, of a program in which `APPEND` occurs only as a statement.  Its events are
completed ones and a last one.  The completed ones have not faulted.  The last one has, and has
changed no variable, and nothing happens after it but that the loop slot is put back.  The variables
are what the assignments and calls of `APPEND` among the completed events have made of those at the
beginning. -/
theorem Program.fault_writes (p : Program) (hp : p.AppendsInStatements) (c : Context) (o : Outcome)
    (f : Fault) (ho : p.run c = some o) (hf : o.fault? = some f) :
    p.trace.run = Run.ownLoop (Stmt.execAll p) ∧
    ∃ done last after, p.events c = some (done ++ [last]) ∧ (∀ e ∈ done, e.fault? = none) ∧
      last.fault? = some f ∧ last.after? = some after ∧ after.vars = last.before.vars ∧
      o.context = { after with loop := c.loop } ∧
      o.context.vars = Write.replay (done.filterMap Event.write?) c.vars := by
  refine ⟨p.run_trace, ?_⟩
  have hfaithful : p.trace.Faithful := (Stmt.traceAll_faithful p hp).ownLoop
  obtain ⟨r, d, hrun, rfl⟩ := Program.run_eq_some_iff.mp ho
  have htrace : p.trace.run c = some (r, { d with loop := c.loop }) := by
    rw [p.run_trace]
    exact Run.ownLoop_eq_some_iff.mpr ⟨d, hrun, rfl⟩
  obtain ⟨⟨es, r', d'⟩, hc, heq⟩ := Option.map_eq_some_iff.mp htrace
  cases heq
  have hevents : p.events c = some es := congrArg (Option.map Prod.fst) hc
  cases hfaithful c _ hc with
  | ok => cases hf
  | error last after hes hlast hafter hkeep hend =>
      cases hf
      obtain ⟨v, hv⟩ := hend
      obtain rfl : c.loop = v := congrArg Context.loop hv
      have hvars := congrArg Context.vars hv
      exact ⟨_, last, after, hevents, hes.fault?_eq_none, hlast, hafter, hkeep, hv,
        hvars.trans (hkeep.trans hes.vars_eq)⟩

/-- A program that sets a variable, appends it to a list and then adds an unknown one to a field. -/
theorem Program.fault_writes_unbound :
    let p : Program := [.assign (.ident "x") .set (.lit (.text "a")),
      .call "Append" [.ident "l", .ident "x"],
      .assign (.property "m" [.field "k"]) .add (.ident "y")]
    let c : Context := ⟨[("l", .list []), ("m", .map [])], none, none, Log.empty .buffer⟩
    ∃ o done last, p.run c = some o ∧ p.events c = some (done ++ [last]) ∧
      last.fault? = some (.unbound "y") ∧
      o.context.vars = Write.replay (done.filterMap Event.write?) c.vars := by
  intro p c
  have hp : p.AppendsInStatements := by decide
  obtain ⟨o, ho, hfault⟩ : ∃ o, p.run c = some o ∧ o.fault? = some (.unbound "y") := ⟨_, rfl, rfl⟩
  obtain ⟨-, done, last, _, hevents, -, hlast, -, -, -, hvars⟩ :=
    Program.fault_writes p hp c o _ ho hfault
  exact ⟨o, done, last, ho, hevents, hlast, hvars⟩

end Edict

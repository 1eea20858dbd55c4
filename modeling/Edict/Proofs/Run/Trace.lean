import Edict.Proofs.Run.Law

/-!
# What a run does

A run taken apart.  An `Action` is what a program does at once: it assigns, calls, evaluates a
condition or the header of a loop.  An `Event` is an action with the context in which it is begun,
and a `Traced` computation lists the events in it, in the order in which they happen.

`Stmt.trace` runs a statement like `Stmt.exec` and lists its events besides; that it is no other run
is `Stmt.run_trace`.

## Main definitions

* `Action`, `Event`: what a program does at once, and such an action with the context it begins in.
* `Write`: what an action writes if it gets through; an action that has no such write changes no
  variable.
* `Stmt.trace`, `Program.events`: the events of a run.  A run without an end has none that could be
  listed.

## Main statements

* `Stmt.run_trace`, `Program.run_trace`: a traced run is the run, with the same outcome on every
  context, also where there is no end.
-/

namespace Edict

/-! ## Actions -/

/-- What a program does at once. -/
inductive Action where
  | assign (target : Reference) (op : AssignOp) (value : Expr)
  | call (function : String) (args : List Expr)
  /-- Evaluating the condition of a branch. -/
  | condition (e : Expr)
  /-- Evaluating how often a loop runs. -/
  | limit (e : Expr)
  /-- Evaluating what a loop runs through. -/
  | source (s : Source)

/-- The number of turns that an expression asks for. -/
def Expr.turns (limit : Expr) : Run Float := do
  let v ← limit.eval
  match v with
  | .number n => return n
  | v => throw (.wrongKind .loopCount (.kind .number) v)

namespace Action

/-- An action for its effect. -/
def run : Action → Run Unit
  | .assign target op value => (Stmt.assign target op value).exec
  | .call f args => (Stmt.call f args).exec
  | .condition e => discard e.eval
  | .limit e => discard e.turns
  | .source s => discard s.elements

/-- The expressions that an action evaluates. -/
def operands : Action → List Expr
  | .assign target _ value => [target.toExpr, value]
  | .call _ args => args
  | .condition e => [e]
  | .limit e => [e]
  | .source (.reference place) => [place.toExpr]
  | .source (.literals _) => []

end Action

/-! ## Writes -/

/-- A change of a variable, with all that had to be evaluated for it. -/
inductive Write where
  | assign (root : String) (keys : List Key) (op : AssignOp) (v : Value)
  | push (root : String) (keys : List Key) (v : Value)

/-- Does a write. -/
def Write.run : Write → Run Unit
  | .assign root keys op v => Run.store root keys op v
  | .push root keys v => Run.update root (Value.append v keys)

/-- The variables after a write.  A write to `$val` changes none. -/
def Write.apply (vars : List (String × Value)) (w : Write) : List (String × Value) :=
  match w.run ⟨vars, none, none, Log.empty .silent⟩ with
  | some (_, d) => d.vars
  | none => vars

/-- The variables after some writes, one after the other. -/
def Write.replay (ws : List Write) (vars : List (String × Value)) : List (String × Value) :=
  ws.foldl Write.apply vars

/-- The write that an action comes down to: an assignment, or a call of `APPEND`, once the value and
the indices of the path are evaluated. -/
def Action.resolve : Action → Run (Option Write)
  | .assign target op value => do
      let v ← value.eval
      let keys ← Step.evalAll target.steps
      return some (.assign target.root keys op v)
  | .call f args =>
      match Builtin.ofName? f, args with
      | some .append, [target, item] =>
          match target.place? with
          | some (root, path) => do
              let v ← item.eval
              let keys ← path
              return some (.push root keys v)
          | none => return none
      | _, _ => return none
  | _ => return none

/-! ## Events -/

/-- An action, and the context in which it is begun. -/
structure Event where
  action : Action
  before : Context

namespace Event

/-- The context in which an event ends. -/
def after? (e : Event) : Option Context := (e.action.run e.before).map (·.2)

/-- The fault in which an event ends. -/
def fault? (e : Event) : Option Fault :=
  match e.action.run e.before with
  | some (.error f, _) => some f
  | _ => none

/-- What an event writes, if it assigns or appends. -/
def write? (e : Event) : Option Write :=
  match e.action.resolve e.before with
  | some (.ok w, _) => w
  | _ => none

end Event

/-! ## Traced computations -/

/-- A computation that lists its events, if it has an end. -/
def Traced (α : Type) := Context → Option (List Event × Except Fault α × Context)

namespace Traced

variable {α β : Type}

instance : Monad Traced where
  pure a c := some ([], .ok a, c)
  bind m f c :=
    match m c with
    | some (es, .ok a, d) => f a d >>= fun t => some (es ++ t.1, t.2)
    | some (es, .error g, d) => some (es, .error g, d)
    | none => none

/-- The computation without the list. -/
def run (m : Traced α) : Run α := fun c => (m c).map (·.2)

/-- A computation that is no event. -/
def silent (m : Run α) : Traced α := fun c => (m c).map fun r => ([], r)

/-- A computation that is one event. -/
def perform (a : Action) (m : Run α) : Traced α := fun c => (m c).map fun r => ([⟨a, c⟩], r)

/-- A computation with a loop slot of its own. -/
def ownLoop (m : Traced α) : Traced α := fun c =>
  match m { c with loop := none } with
  | some (es, r, d) => some (es, r, { d with loop := c.loop })
  | none => none

/-- Runs a loop body once per value. -/
def forEach (body : Traced Unit) : List Value → Traced Unit
  | [] => pure ()
  | v :: rest => do
      silent (Run.setLoop v)
      body
      forEach body rest

/-- Runs a loop body as often as the index is below `limit`, as in `Run.countUp`. -/
def countUp (body : Traced Unit) (limit index : Float) (c : Context) :
    Option (List Event × Except Fault Unit × Context) :=
  if index < limit then
    match body { c with loop := some (.number index) } with
    | some (es, .ok _, d) => (body |>.countUp limit (index + 1) d) >>= fun t => some (es ++ t.1, t.2)
    | some (es, .error g, d) => some (es, .error g, d)
    | none => none
  else some ([], .ok (), c)
partial_fixpoint

/-- Runs a loop body for `0`, `1`, … below `limit`, as in `Run.count`. -/
def count (body : Traced Unit) (limit : Float) : Traced Unit :=
  if limit.isFinite && 0 < limit then ownLoop (countUp body limit 0) else pure ()

end Traced

open Traced

mutual

/-- Runs a statement and lists its events. -/
def Stmt.trace : Stmt → Traced Unit
  | .assign target op value =>
      perform (.assign target op value) (Stmt.assign target op value).exec
  | .branch c t e => do
      let v ← perform (.condition c) c.eval
      if v.truthy then
        Stmt.traceAll t
      else
        match e with
        | some body => Stmt.traceAll body
        | none => pure ()
  | .count limit body => do
      let n ← perform (.limit limit) limit.turns
      Traced.count (Stmt.traceAll body) n
  | .each source body => do
      let items ← perform (.source source) source.elements
      Traced.ownLoop (Traced.forEach (Stmt.traceAll body) items)
  | .call f args => perform (.call f args) (Stmt.call f args).exec

/-- Runs statements in order and lists their events. -/
def Stmt.traceAll : List Stmt → Traced Unit
  | [] => pure ()
  | s :: rest => do
      s.trace
      Stmt.traceAll rest

end

/-- Runs a program and lists its events. -/
def Program.trace (p : Program) : Traced Unit := Traced.ownLoop (Stmt.traceAll p)

/-- The events of the run of a program, in the order in which they happen; a run without end has no
list of them. -/
def Program.events (p : Program) (c : Context) : Option (List Event) := (p.trace c).map (·.1)

/-! ## The events are those of the run -/

namespace Traced

variable {α β : Type}

/-- A sequence runs its second part where the first one ends, and has the events of both. -/
theorem bind_apply (m : Traced α) (f : α → Traced β) (c : Context) :
    (m >>= f) c =
      match m c with
      | some (es, .ok a, d) => f a d >>= fun t => some (es ++ t.1, t.2)
      | some (es, .error g, d) => some (es, .error g, d)
      | none => none := rfl

/-- A computation without events is the run it was made from. -/
@[simp] theorem run_silent (m : Run α) : (silent m).run = m := by
  funext c
  unfold run silent
  rw [Option.map_map]
  exact Option.map_id'

/-- So is one with a single event. -/
@[simp] theorem run_perform (a : Action) (m : Run α) : (perform a m).run = m := by
  funext c
  unfold run perform
  rw [Option.map_map]
  exact Option.map_id'

/-- Sequences run like sequences. -/
theorem run_bind (m : Traced α) (f : α → Traced β) :
    (m >>= f).run = m.run >>= fun a => (f a).run := by
  funext c
  rw [Run.bind_apply]
  unfold run
  rw [bind_apply]
  rcases m c with _ | ⟨es, g | a, d⟩
  · rfl
  · rfl
  · show (f a d >>= _).map _ = (f a d).map _
    cases f a d <;> rfl

/-- A computation with a loop slot of its own runs like one. -/
theorem run_ownLoop (m : Traced α) : (ownLoop m).run = Run.ownLoop m.run := by
  funext c
  unfold run ownLoop Run.ownLoop
  dsimp only
  rcases m { c with loop := none } with _ | ⟨es, r, d⟩ <;> rfl

/-- Loops over values run alike. -/
theorem run_forEach (body : Traced Unit) (vs : List Value) :
    (forEach body vs).run = Run.forEach body.run vs := by
  induction vs with
  | nil => rfl
  | cons v vs ih => simp only [forEach, Run.forEach, run_bind, run_silent, ih]

/-- What a traced counted loop comes to, the loop comes to. -/
theorem run_countUp_of_some {body : Traced Unit} {limit index : Float} {c : Context}
    {t : List Event × Except Fault Unit × Context} (h : countUp body limit index c = some t) :
    Run.countUp body.run limit index c = some t.2 := by
  refine countUp.partial_correctness body limit
    (fun index c t => Run.countUp body.run limit index c = some t.2) ?_ index c t h
  intro rest ih index c t h
  rw [Run.countUp]
  unfold run
  split at h
  · rename_i hlt
    rw [if_pos hlt]
    split at h
    · rename_i es d hbody
      obtain ⟨u, hu, hrest⟩ := Option.bind_eq_some_iff.mp h
      cases hrest
      rw [hbody]
      exact ih _ _ u hu
    · rename_i es g d hbody
      cases h
      rw [hbody]
      rfl
    · cases h
  · rename_i hnot
    cases h
    rw [if_neg hnot]

/-- What a counted loop comes to, the traced loop comes to. -/
theorem exists_countUp {body : Traced Unit} {limit index : Float} {c : Context}
    {r : Except Fault Unit × Context} (h : Run.countUp body.run limit index c = some r) :
    ∃ es, countUp body limit index c = some (es, r) := by
  refine Run.countUp.partial_correctness body.run limit
    (fun index c r => ∃ es, countUp body limit index c = some (es, r)) ?_ index c r h
  intro rest ih index c r h
  unfold run at h
  rw [countUp]
  split at h
  · rename_i hlt
    rw [if_pos hlt]
    rcases hbody : body { c with loop := some (.number index) } with _ | ⟨es, g | a, d⟩
    · rw [hbody] at h
      cases h
    · rw [hbody] at h
      cases h
      exact ⟨es, rfl⟩
    · rw [hbody] at h
      obtain ⟨fs, hfs⟩ := ih _ _ _ h
      dsimp only
      rw [hfs]
      exact ⟨es ++ fs, rfl⟩
  · rename_i hnot
    cases h
    exact ⟨[], if_neg hnot⟩

/-- Counted loops run alike. -/
theorem run_countUp (body : Traced Unit) (limit index : Float) :
    run (countUp body limit index) = Run.countUp body.run limit index := by
  funext c
  refine Option.ext fun r => ⟨fun h => ?_, fun h => ?_⟩
  · obtain ⟨t, ht, rfl⟩ := Option.map_eq_some_iff.mp h
    exact run_countUp_of_some ht
  · obtain ⟨es, hes⟩ := exists_countUp h
    exact Option.map_eq_some_iff.mpr ⟨_, hes, rfl⟩

/-- Counted loops run alike from their beginning. -/
theorem run_count (body : Traced Unit) (limit : Float) :
    (count body limit).run = Run.count body.run limit := by
  unfold count Run.count
  split
  · exact (run_ownLoop _).trans (congrArg Run.ownLoop (run_countUp body limit 0))
  · rfl

end Traced

mutual

/-- A statement that is traced runs as it does otherwise. -/
theorem Stmt.run_trace : ∀ s : Stmt, s.trace.run = s.exec
  | .assign _ _ _ => Traced.run_perform _ _
  | .branch c t none => by
      rw [Stmt.trace, Traced.run_bind, Traced.run_perform, Stmt.exec]
      refine congrArg _ (funext fun v => ?_)
      split
      · exact Stmt.run_traceAll t
      · rfl
  | .branch c t (some e) => by
      rw [Stmt.trace, Traced.run_bind, Traced.run_perform, Stmt.exec]
      refine congrArg _ (funext fun v => ?_)
      split
      · exact Stmt.run_traceAll t
      · exact Stmt.run_traceAll e
  | .count limit body => by
      rw [Stmt.trace, Traced.run_bind, Traced.run_perform, Stmt.exec, Expr.turns, bind_assoc]
      refine congrArg _ (funext fun v => ?_)
      cases v with
      | number n =>
          rw [pure_bind, Traced.run_count, Stmt.run_traceAll body]
      | _ => rfl
  | .each source body => by
      rw [Stmt.trace, Traced.run_bind, Traced.run_perform, Stmt.exec]
      refine congrArg _ (funext fun items => ?_)
      rw [Traced.run_ownLoop, Traced.run_forEach, Stmt.run_traceAll body]
  | .call _ _ => Traced.run_perform _ _

/-- The same for statements in order. -/
theorem Stmt.run_traceAll : ∀ ss : List Stmt, (Stmt.traceAll ss).run = Stmt.execAll ss
  | [] => rfl
  | s :: ss => by
      rw [Stmt.traceAll, Traced.run_bind, Stmt.execAll, Stmt.run_trace s]
      exact congrArg _ (funext fun _ => Stmt.run_traceAll ss)

end

/-- A program that is traced runs as it does otherwise. -/
theorem Program.run_trace (p : Program) : p.trace.run = Run.ownLoop (Stmt.execAll p) := by
  rw [Program.trace, Traced.run_ownLoop, Stmt.run_traceAll]

end Edict

import Edict.Proofs.Run.Scope
import Edict.Session

/-!
# The loop slot

Loops and programs put the loop slot back as they found it, however they end.  A host, which cannot
reach the slot itself, therefore never sees a value in it.

A run without end puts nothing back and shows nothing to the host, so the statements here are about
the runs, the loops and the sequences of requests that have an end.  What the bodies of loops do to
the slot is no part of them.

## Main definitions

* `Session.serve`: a session after a sequence of requests, if all of them are answered.
* `Host.context`: what a host makes a context of.

## Main statements

* `Program.loop_run`: a program leaves the slot as it found it.
* `Stmt.loop_count`, `Stmt.loop_each`: a loop leaves the slot as the evaluation of its header did.
* `loop_slot_restored`: both, and the slots are empty in every session.
-/

namespace Edict

/-! ## Statements and programs -/

namespace Run

variable {α β : Type} {c d : Context} {r : Except Fault β}

/-- The slot is put back. -/
theorem ownLoop_keeps_loop (m : Run α) : Keeps Context.loop (ownLoop m) := by
  intro c r d h
  obtain ⟨e, -, rfl⟩ := ownLoop_eq_some_iff.mp h
  rfl

/-- A counted loop keeps the slot, whatever its body does. -/
theorem count_keeps_loop (body : Run Unit) (limit : Float) :
    Keeps Context.loop (count body limit) := by
  unfold count
  split
  · exact ownLoop_keeps_loop _
  · exact (law_keeps _).pure ()

/-- A sequence leaves the slot as its first part does, if the second part keeps it. -/
theorem exists_loop_eq {m : Run α} {f : α → Run β} (hf : ∀ a, Keeps Context.loop (f a))
    (h : (m >>= f) c = some (r, d)) : ∃ s e, m c = some (s, e) ∧ d.loop = e.loop := by
  obtain ⟨g, hg, -⟩ | ⟨a, e, ha, hrest⟩ := cases_of_bind h
  · exact ⟨_, d, hg, rfl⟩
  · exact ⟨_, e, ha, hf a e r d hrest⟩

end Run

section loops

variable {c d : Context} {r : Except Fault Unit} {body : List Stmt}

/-- A counted loop leaves the slot as the evaluation of its count did. -/
theorem Stmt.loop_count {limit : Expr} (h : (Stmt.count limit body).exec c = some (r, d)) :
    ∃ s e, limit.eval c = some (s, e) ∧ d.loop = e.loop := by
  refine Run.exists_loop_eq (fun v => ?_) h
  cases v with
  | number n => exact Run.count_keeps_loop _ n
  | _ => exact (Run.law_keeps _).throw _ (Fault.wrongKind_immediate _ _ _)

/-- A loop over elements leaves the slot as the evaluation of its source did. -/
theorem Stmt.loop_each {source : Source} (h : (Stmt.each source body).exec c = some (r, d)) :
    ∃ s e, source.elements c = some (s, e) ∧ d.loop = e.loop :=
  Run.exists_loop_eq (fun _ => Run.ownLoop_keeps_loop _) h

end loops

/-- A program leaves the slot as it found it. -/
theorem Program.loop_run {p : Program} {c : Context} {o : Outcome} (h : p.run c = some o) :
    o.context.loop = c.loop := by
  obtain ⟨r, d, -, rfl⟩ := run_eq_some_iff.mp h
  rfl

/-! ## Sessions -/

/-- No request changes the slot of the context that answers it. -/
theorem Context.loop_answer {programs : List (String × Program)} {c d : Context} {r : Request}
    {reply : Reply} (h : c.answer programs r = some (reply, d)) : d.loop = c.loop := by
  cases r with
  | compile name source =>
      dsimp only [answer] at h
      split at h <;> cases h <;> rfl
  | exec name =>
      obtain ⟨o, ho, heq⟩ := Option.map_eq_some_iff.mp h
      cases heq
      exact Program.loop_run ho
  | run source =>
      obtain ⟨⟨error?, after⟩, hrun, heq⟩ := Option.map_eq_some_iff.mp h
      cases heq
      unfold Program.runSource at hrun
      split at hrun
      · cases hrun
        rfl
      · obtain ⟨o, ho, heq⟩ := Option.map_eq_some_iff.mp hrun
        cases heq
        exact Program.loop_run ho
  | _ =>
      cases h
      rfl

namespace Session

/-- The slots of all contexts of a session. -/
def loops (s : Session) : List (Option Value) := s.members.map (·.context.loop)

/-- Writing a log to those who share it changes no slot. -/
theorem loops_update (members : List Member) (i : Nat) (m : Member)
    (h : ∀ old ∈ members[i]?, m.context.loop = old.context.loop) :
    (update members i m).map (·.context.loop) = members.map (·.context.loop) := by
  have hset : (members.set i m).map (·.context.loop) = members.map (·.context.loop) := by
    refine List.ext_getElem? fun n => ?_
    rw [List.getElem?_map, List.getElem?_map, List.getElem?_set]
    split
    · rename_i hin
      subst hin
      rcases hold : members[i]? with _ | old
      · rw [if_neg (Nat.not_lt.mpr (List.getElem?_eq_none_iff.mp hold))]
      · obtain ⟨hlt, -⟩ := List.getElem?_eq_some_iff.mp hold
        rw [if_pos hlt]
        exact congrArg some (h old hold)
    · rfl
  unfold update
  split
  · rw [List.map_map, ← hset]
    refine List.map_congr_left fun other _ => ?_
    show (if other.sharesLog then _ else other).context.loop = _
    split <;> rfl
  · exact hset

/-- A request that is answered changes no slot. -/
theorem loops_step {s t : Session} {i : Nat} {r : Request} {reply : Reply}
    (h : s.step i r = some (reply, t)) : t.loops = s.loops := by
  obtain ⟨m, hm, h⟩ := Option.bind_eq_some_iff.mp h
  obtain ⟨⟨reply, after⟩, hanswer, h⟩ := Option.bind_eq_some_iff.mp h
  cases h
  refine loops_update s.members i _ fun old hold => ?_
  obtain rfl : m = old := Option.some.inj (hm.symm.trans hold)
  exact Context.loop_answer hanswer

/-- The session after a sequence of requests, each to the context at some position, if all of them
are answered; a request to a position without a context changes nothing. -/
def serve (s : Session) : List (Nat × Request) → Option Session
  | [] => some s
  | (i, r) :: rest =>
      if i < s.members.length then
        (s.step i r).bind fun answered => serve answered.2 rest
      else serve s rest

/-- No sequence of requests changes a slot. -/
theorem loops_serve {s t : Session} {requests : List (Nat × Request)}
    (h : s.serve requests = some t) : t.loops = s.loops := by
  induction requests generalizing s with
  | nil =>
      cases h
      rfl
  | cons request rest ih =>
      obtain ⟨i, r⟩ := request
      unfold serve at h
      split at h
      · obtain ⟨⟨reply, u⟩, hstep, hrest⟩ := Option.bind_eq_some_iff.mp h
        exact (ih hrest).trans (loops_step hstep)
      · exact ih h

end Session

/-- What a host makes a context of. -/
structure Host where
  vars : List (String × Value)
  model : Option Model
  sink : Sink
  /-- Whether the log is the common one. -/
  sharesLog : Bool

/-- The context that a host makes: an empty one, with the model and the variables set. -/
def Host.context (h : Host) : Context :=
  h.vars.foldl (fun c p => c.set p.1 p.2) { Context.empty h.sink with model := h.model }

/-- The context as part of a session. -/
def Host.member (h : Host) : Member := ⟨h.context, h.sharesLog⟩

/-- A host makes contexts with an empty slot. -/
theorem Host.loop_context (h : Host) : h.context.loop = none := by
  have hset : ∀ (vars : List (String × Value)) (c : Context), c.loop = none →
      (vars.foldl (fun c p => c.set p.1 p.2) c).loop = none := by
    intro vars
    induction vars with
    | nil => exact fun _ hc => hc
    | cons p vars ih => exact fun c hc => ih (c.set p.1 p.2) hc
  exact hset h.vars _ rfl

/-- Programs leave the loop slot as it was, whatever their outcome; so does every loop, once its
count or its source has been evaluated; and in every session the slots are empty between any two
requests. -/
theorem loop_slot_restored :
    (∀ (p : Program) (c : Context) (o : Outcome), p.run c = some o → o.context.loop = c.loop) ∧
    (∀ (limit : Expr) (body : List Stmt) (c : Context) (r : Except Fault Unit) (d : Context),
      (Stmt.count limit body).exec c = some (r, d) →
        ∃ s e, limit.eval c = some (s, e) ∧ d.loop = e.loop) ∧
    (∀ (source : Source) (body : List Stmt) (c : Context) (r : Except Fault Unit) (d : Context),
      (Stmt.each source body).exec c = some (r, d) →
        ∃ s e, source.elements c = some (s, e) ∧ d.loop = e.loop) ∧
    ∀ (hosts : List Host) (requests : List (Nat × Request)) (s : Session),
      (Session.start (hosts.map Host.member)).serve requests = some s →
        s.loops = hosts.map fun _ => none := by
  refine ⟨fun _ _ _ => Program.loop_run, fun _ _ _ _ _ => Stmt.loop_count,
    fun _ _ _ _ _ => Stmt.loop_each, fun hosts requests s hs => ?_⟩
  rw [Session.loops_serve hs]
  show ((hosts.map Host.member).map (·.context.loop)) = _
  rw [List.map_map]
  exact List.map_congr_left fun h _ => h.loop_context

/-- A loop in a loop, the bodies of which set `$val` before the inner one fails; and a host that
sets a variable of this name before it runs a program. -/
theorem loop_slot_restored_failing :
    let s : Stmt := .each (.literals [.text "a"]) [
      .assign (.ident "$val") .set (.lit (.text "b")),
      .each (.literals [.text "c"]) [
        .assign (.ident "$val") .set (.lit (.text "d")),
        .assign (.ident "x") .set (.ident "y")]]
    let c : Context := ⟨[], some (.bool true), none, Log.empty .buffer⟩
    (∃ o, Program.run [s] c = some o ∧ o.fault? = some (.unbound "y") ∧
      o.context.loop = some (.bool true)) ∧
    (∃ r d, s.exec c = some (r, d) ∧ d.loop = some (.bool true)) ∧
    ∃ t, (Session.start [Host.member ⟨[("x", .absent)], none, .buffer, false⟩]).serve
        [(0, .set "$val" (.bool true)), (0, .exec "p")] = some t ∧ t.loops = [none] := by
  intro s c
  obtain ⟨hrun, -, heach, hserve⟩ := loop_slot_restored
  refine ⟨?_, ?_, ?_⟩
  · obtain ⟨o, ho, hfault⟩ : ∃ o, Program.run [s] c = some o ∧ o.fault? = some (.unbound "y") :=
      ⟨_, rfl, rfl⟩
    exact ⟨o, ho, hfault, hrun _ c o ho⟩
  · obtain ⟨r, d, hd⟩ : ∃ r d, s.exec c = some (r, d) := ⟨_, _, rfl⟩
    obtain ⟨r', e, he, hloop⟩ := heach _ _ c r d hd
    cases he
    exact ⟨r, d, hd, hloop⟩
  · obtain ⟨t, ht⟩ : ∃ t, (Session.start [Host.member ⟨[("x", .absent)], none, .buffer, false⟩]).serve
        [(0, .set "$val" (.bool true)), (0, .exec "p")] = some t := ⟨_, rfl⟩
    exact ⟨t, ht, hserve [⟨[("x", .absent)], none, .buffer, false⟩] _ t ht⟩

end Edict

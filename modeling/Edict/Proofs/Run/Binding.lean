import Edict.Proofs.Run.Frame

/-!
# Names with values

A program does not come upon a name without a value if the host has given all names in it one,
except for `$val`, which must then occur in bodies of loops only.  Two things carry this: no run
takes a value away from a name, and the loop slot is filled wherever a body runs.  The second is not
obvious, since every loop begins by emptying the slot: it is filled again before the body runs for
the first time, and put back before anything else of the enclosing body runs.

## Main definitions

* `Bound names inLoop`: what holds before and after every step, with `inLoop` for the places inside
  of loops.
* `Run.Safe`: a computation that keeps it and does not stop at a name without a value.
* `Program.runAll`: the context after several runs.

## Main statements

* `Run.scopeLaw_safe`: loops are safe inside and outside of loops if their bodies are safe inside.
* `Program.run_bound`: a program whose names have values stops at no name without one, also after
  other runs in the same context.  It may stop at any other fault, or have no end.
-/

namespace Edict

/-- The host has given the names values, and in a body of a loop the loop slot is filled as well. -/
structure Bound (names : List String) (inLoop : Bool) (c : Context) : Prop where
  vars : ∀ x ∈ names, x ≠ loopName → (c.get? x).isSome
  slot : inLoop = true → c.loop.isSome

namespace Bound

variable {names : List String} {inLoop : Bool} {c : Context} {x : String}

/-- What may be read in a body of a loop, or is not `$val`, has a value. -/
theorem lookup (h : Bound names inLoop c) (hx : x ∈ names) (hloop : x = loopName → inLoop = true) :
    (c.lookup x).isSome := by
  unfold Context.lookup
  split
  · exact h.slot (hloop ‹_›)
  · exact h.vars x hx ‹_›

/-- Giving a name a value takes no other value away. -/
theorem bind (h : Bound names inLoop c) (x : String) (v : Value) :
    Bound names inLoop (c.bind x v) := by
  unfold Context.bind
  split
  · exact ⟨h.vars, fun _ => rfl⟩
  · refine ⟨fun y hy hne => ?_, h.slot⟩
    show (Entries.find? y (Entries.insert x v c.vars)).isSome
    rw [Entries.find?_insert]
    split
    · rfl
    · exact h.vars y hy hne

/-- Outside of loops it does not matter what is in the slot. -/
theorem setLoop (h : Bound names inLoop c) (v : Option Value) :
    Bound names false { c with loop := v } :=
  ⟨h.vars, nofun⟩

/-- With a value in the slot, a body may run. -/
theorem enter (h : Bound names inLoop c) (v : Value) :
    Bound names true { c with loop := some v } :=
  ⟨h.vars, fun _ => rfl⟩

/-- What holds in bodies of loops holds outside of them. -/
theorem outside (h : Bound names inLoop c) : Bound names false c := ⟨h.vars, nofun⟩

end Bound

/-! ## Steps of programs -/

namespace Run

variable {α β : Type} {I J K : Context → Prop}

/-- From each context with the first property, the computation succeeds in a context with the second
one, or it stops at something else than a name without a value, or it has no end. -/
def Leads (I J : Context → Prop) (m : Run α) : Prop :=
  ∀ c, I c → ∀ r d, m c = some (r, d) →
    match r with
    | .ok _ => J d
    | .error f => ∀ x, f ≠ .unbound x

namespace Leads

/-- One step after the other. -/
theorem bind {m : Run α} {f : α → Run β} (hm : Leads I J m) (hf : ∀ a, Leads J K (f a)) :
    Leads I K (m >>= f) := by
  intro c hc r d h
  obtain ⟨g, hg, rfl⟩ | ⟨a, e, ha, hrest⟩ := cases_of_bind h
  · exact hm c hc _ d hg
  · exact hf a e (hm c hc _ e ha) r d hrest

/-- Less may be asked of the end. -/
theorem weaken {m : Run α} (h : Leads I J m) (hJK : ∀ c, J c → K c) : Leads I K m := by
  intro c hc r d hd
  have hm := h c hc r d hd
  cases r with
  | ok a => exact hJK d hm
  | error f => exact hm

/-- A change of the context. -/
theorem modify {change : Context → Context} (h : ∀ c, I c → J (change c)) :
    Leads I J (modify change : Run Unit) := by
  intro c hc r d hd
  cases hd
  exact h c hc

/-- Where all computations of a sequence lead, what they approach leads. -/
theorem limit {ms : Nat → Run α} {m : Run α} (hms : ∀ n, Leads I J (ms n))
    (happroaches : Approaches ms m) : Leads I J m := by
  intro c hc r d hd
  obtain ⟨n, hn⟩ := happroaches c
  exact hms n c hc r d ((hn n (Nat.le_refl n)).trans hd)

end Leads

/-- The computation is safe if all names have values, before and afterwards. -/
def Safe (names : List String) (inLoop : Bool) (m : Run α) : Prop :=
  Leads (Bound names inLoop) (Bound names inLoop) m

variable {names : List String} {inLoop : Bool} {x : String}

/-- Safe computations lead to safe ones. -/
theorem law_safe : Law (Safe names inLoop) where
  pure _ c hc r d h := by
    cases h
    exact hc
  throw f hf c _ r d h := by
    cases h
    rintro x rfl
    exact hf
  bind := Leads.bind

/-- Reading a name that has a value is safe. -/
theorem lookup_safe (hx : x ∈ names) (hloop : x = loopName → inLoop = true) :
    Safe names inLoop (lookup x) := by
  intro c hc r d h
  obtain ⟨v, hv⟩ := Option.isSome_iff_exists.mp (hc.lookup hx hloop)
  rw [lookup_apply, hv] at h
  cases h
  exact hc

/-- Asking the model is safe. -/
theorem domainObject_safe (f : Builtin) (find : Model → Value → Option Value) (id : Value) :
    Safe names inLoop (domainObject f find id) := by
  intro c hc r d h
  rw [domainObject_apply] at h
  split at h
  · cases h
    exact hc
  · cases h
    exact nofun

/-- Giving a name a value is safe. -/
theorem bind_safe (x : String) (v : Value) : Safe names inLoop (Run.bind x v) :=
  Leads.modify fun _ h => h.bind x v

/-- Changing a name that has a value is safe. -/
theorem update_safe (hx : x ∈ names) (hloop : x = loopName → inLoop = true)
    {change : Value → Except Fault Value} (hchange : ∀ v, Ends (change v)) :
    Safe names inLoop (update x change) := by
  apply law_safe.bind (lookup_safe hx hloop)
  intro old
  apply law_safe.bind (law_safe.ofExcept (hchange old))
  exact bind_safe x

/-- Assigning to a name that has a value is safe. -/
theorem store_safe (hx : x ∈ names) (hloop : x = loopName → inLoop = true) (keys : List Key)
    (op : AssignOp) (v : Value) : Safe names inLoop (store x keys op v) := by
  unfold store
  split
  · exact update_safe hx hloop fun old => Value.assign_ends op v _ _ old
  · split
    · exact bind_safe x v
    · exact update_safe hx hloop fun old => Value.arith_ends _ old v

/-! ## Loops -/

/-- A turn of a loop fills the slot before the body runs. -/
theorem Safe.turn {body rest : Run Unit} (hbody : Safe names true body)
    (hrest : Safe names false rest) (v : Value) :
    Safe names false (setLoop v >>= fun _ => body >>= fun _ => rest) := by
  have henter : Leads (Bound names false) (Bound names true) (setLoop v) :=
    Leads.modify fun _ h => h.enter v
  have hleave : Leads (Bound names true) (Bound names false) body :=
    hbody.weaken fun _ h => h.outside
  exact henter.bind fun _ => hleave.bind fun _ => hrest

/-- A loop over values fills the slot before its body runs. -/
theorem Safe.forEach {body : Run Unit} (h : Safe names true body) (items : List Value) :
    Safe names false (forEach body items) := by
  induction items with
  | nil => exact law_safe.pure ()
  | cons v items ih => exact h.turn ih v

/-- So does a counted loop with a bound. -/
theorem Safe.countFor {body : Run Unit} (h : Safe names true body) (limit : Float) (n : Nat)
    (index : Float) : Safe names false (countFor body limit n index) := by
  induction n generalizing index with
  | zero => exact fun _ _ _ _ hnever => nomatch hnever
  | succ n ih =>
      unfold Run.countFor
      split
      · exact h.turn (ih (index + 1)) (.number index)
      · exact law_safe.pure ()

/-- A loop that is safe outside of loops is safe inside of them, with a slot of its own. -/
theorem Safe.ownLoop {m : Run Unit} (h : Safe names false m) : Safe names inLoop (ownLoop m) := by
  intro c hc r d hd
  obtain ⟨e, he, rfl⟩ := ownLoop_eq_some_iff.mp hd
  have hm := h { c with loop := none } (hc.setLoop none) r e he
  cases r with
  | ok a => exact ⟨hm.vars, hc.slot⟩
  | error f => exact hm

/-- Inside and outside of loops, a loop is safe if its body is. -/
theorem scopeLaw_safe : ScopeLaw (Safe names inLoop) (Safe names true) where
  toLaw := law_safe
  each items h := (h.forEach items).ownLoop
  count limit h := by
    unfold count
    split
    · exact Safe.ownLoop (Leads.limit (fun n => h.countFor limit n 0) (countFor_approaches _ _ _))
    · exact law_safe.pure ()

end Run

/-! ## Programs -/

/-- A statement of names that have values is safe by itself. -/
theorem Stmt.obeys_safe {names : List String} {inLoop : Bool} {s : Stmt}
    (h : ∀ x ∈ s.mentions, x ∈ names ∧ (x = loopName → inLoop = true)) :
    s.Obeys (Run.Safe names inLoop) := by
  apply Stmt.obeys_of_mentions
  · exact fun v => Run.Leads.modify fun _ h => ⟨h.vars, h.slot⟩
  · exact Run.domainObject_safe
  · exact fun x hx => Run.lookup_safe (h x hx).1 (h x hx).2
  · exact fun x hx change => Run.update_safe (h x hx).1 (h x hx).2
  · exact fun x hx => Run.store_safe (h x hx).1 (h x hx).2

/-- Statements are safe that mention `$val` in bodies of loops only. -/
theorem Stmt.execAll_safe {ss : List Stmt} (h : loopName ∉ Program.namesOutside ss) :
    Run.Safe (Program.names ss) false (Stmt.execAll ss) := by
  apply Stmt.execAll_scoped Run.scopeLaw_safe Run.scopeLaw_safe
  · intro s hs
    apply Stmt.obeys_safe
    intro x hx
    refine ⟨List.mem_flatMap.mpr ⟨s, Stmt.outsideAll_subset ss hs, hx⟩, ?_⟩
    rintro rfl
    exact absurd (List.mem_flatMap.mpr ⟨s, hs, hx⟩) h
  · intro s hs
    apply Stmt.obeys_safe
    exact fun x hx => ⟨List.mem_flatMap.mpr ⟨s, hs, hx⟩, fun _ => rfl⟩

namespace Program

/-- The context after several programs have been run in it, however these runs ended, if they
did. -/
def runAll : List Program → Context → Option Context
  | [], c => some c
  | p :: ps, c => (p.run c).bind fun o => runAll ps o.context

/-- Runs take no values away. -/
theorem isSome_get?_runAll {ps : List Program} {c d : Context} {x : String}
    (hd : runAll ps c = some d) (h : (c.get? x).isSome) : (d.get? x).isSome := by
  induction ps generalizing c with
  | nil =>
      cases hd
      exact h
  | cons p ps ih =>
      obtain ⟨o, ho, hd⟩ := Option.bind_eq_some_iff.mp hd
      exact ih hd ((p.run_frame c o ho).2.1 x h)

/-- If all names in a program have values, except for `$val`, which occurs in bodies of loops only,
then no run of the program stops at a name without a value, whatever programs have been run in the
same context before. -/
theorem run_bound (p : Program) (earlier : List Program) (c : Context)
    (hvars : ∀ x ∈ p.names, x ≠ loopName → (c.get? x).isSome) (hval : loopName ∉ p.namesOutside)
    (d : Context) (hd : runAll earlier c = some d) (o : Outcome) (ho : p.run d = some o)
    (x : String) : o.fault? ≠ some (.unbound x) := by
  have hstart : Bound p.names false { d with loop := none } := by
    refine ⟨fun y hy hne => ?_, nofun⟩
    have hbound : (d.get? y).isSome := isSome_get?_runAll hd (hvars y hy hne)
    exact hbound
  obtain ⟨r, e, hrun, rfl⟩ := run_eq_some_iff.mp ho
  have hend := Stmt.execAll_safe hval _ hstart r e hrun
  cases r with
  | ok a => exact nofun
  | error f => exact fun hf => hend x (Option.some.inj hf)

/-- `$val` is read in the header of an inner loop, set in its body and read again behind it; an
earlier run in the same context has stopped at a name without a value. -/
theorem run_bound_nested :
    let p : Program := [.each (.literals [.text "a", .text "b"]) [
      .each (.reference (.property "m" [.index (.ident "$val")])) [
        .assign (.ident "$val") .add (.lit (.text "c")),
        .call "append" [.ident "l", .ident "$val"]],
      .assign (.ident "x") .set (.ident "$val")]]
    let q : Program := [.assign (.ident "x") .set (.ident "y")]
    let c : Context := ⟨[("l", .list []), ("m", .map [("a", .list [.text "d"]), ("b", .list [])]),
      ("x", .absent)], none, none, Log.empty .buffer⟩
    (∀ x ∈ p.names, x ≠ loopName → (c.get? x).isSome) ∧ loopName ∉ p.namesOutside ∧
      ∃ o d o', q.run c = some o ∧ o.fault? = some (.unbound "y") ∧ runAll [q] c = some d ∧
        p.run d = some o' ∧ o'.fault? ≠ some (.unbound "$val") := by
  intro p q c
  have hvars : ∀ x ∈ p.names, x ≠ loopName → (c.get? x).isSome := by decide
  have hval : loopName ∉ p.namesOutside := by decide
  obtain ⟨o, d, o', hq, hfault, hd, ho'⟩ : ∃ o d o', q.run c = some o ∧
      o.fault? = some (.unbound "y") ∧ runAll [q] c = some d ∧ p.run d = some o' :=
    ⟨_, _, _, rfl, rfl, rfl, by with_unfolding_all rfl⟩
  exact ⟨hvars, hval, o, d, o', hq, hfault, hd, ho', run_bound p [q] c hvars hval d hd o' ho' "$val"⟩

end Program

end Edict

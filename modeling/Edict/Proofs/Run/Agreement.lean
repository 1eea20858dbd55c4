import Edict.Proofs.Run.LoopSlot

/-!
# What a program depends on

A run depends on the model and on the variables that the program names, and on nothing else: not on
other variables, not on what the loop slot held before, not on where logged values go, and not on a
host variable that happens to be called `$val`.  Two contexts that agree on the former lead to the
same outcome, or to none in both.

The proof is one relation between two contexts, `Agree`, that every step of a program preserves.  Of
the models nothing is asked but that they are the same.

## Main definitions

* `Run.Alike`, `Run.Respects`: two runs of a computation, side by side, end in the same way.
* `Agree`: two contexts agree on all that a program with the given names can see.

## Main statements

* `Run.law_respects`, `Run.loopLaw_respects`: ending in the same way is a law, also of loops without
  end.
* `Program.run_agrees`: runs from contexts that agree end in the same way.
* `Program.get?_loopName_run`: no program writes a host variable `$val`.
-/

namespace Edict

namespace Run

variable {R : Context → Context → Prop} {α β : Type}

/-! ## Runs side by side -/

/-- Two computations end alike, in contexts that are related, or both have no end. -/
inductive Alike (R : Context → Context → Prop) :
    Option (Except Fault α × Context) → Option (Except Fault α × Context) → Prop
  | ends {r : Except Fault α} {c d : Context} : R c d → Alike R (some (r, c)) (some (r, d))
  | never : Alike R none none

/-- Either both have an end, with the same value or the same fault, or none has. -/
theorem Alike.elim {t t' : Option (Except Fault α × Context)} (h : Alike R t t') :
    (∃ r c d, t = some (r, c) ∧ t' = some (r, d) ∧ R c d) ∨ t = none ∧ t' = none := by
  cases h with
  | ends h => exact .inl ⟨_, _, _, rfl, rfl, h⟩
  | never => exact .inr ⟨rfl, rfl⟩

/-- From related contexts, a computation ends alike. -/
def Respects (R : Context → Context → Prop) (m : Run α) : Prop :=
  ∀ c d, R c d → Alike R (m c) (m d)

/-- Sequences respect what their parts respect. -/
theorem law_respects (R : Context → Context → Prop) : Law (Respects R) where
  pure _ _ _ h := .ends h
  throw _ _ _ _ h := .ends h
  bind {_ _ m f} hm hf c d h := by
    rw [bind_apply, bind_apply]
    obtain ⟨g | a, c', d', hc, hd, h'⟩ | ⟨hc, hd⟩ := (hm c d h).elim
    · rw [hc, hd]
      exact .ends h'
    · rw [hc, hd]
      exact hf a c' d' h'
    · rw [hc, hd]
      exact .never

/-- A change of the context that preserves the relation is respected. -/
theorem respects_modify {change : Context → Context} (h : ∀ c d, R c d → R (change c) (change d)) :
    Respects R (modify change : Run Unit) :=
  fun c d hcd => .ends (h c d hcd)

end Run

/-! ## Contexts that agree -/

/-- Two contexts agree on the model, the loop slot and the named variables, except on a host
variable `$val`; and the same values have been sent to their logs since these held `before` and
`before'`. -/
structure Agree (names : List String) (before before' : List Value) (c d : Context) : Prop where
  model : c.model = d.model
  loop : c.loop = d.loop
  vars : ∀ x ∈ names, x ≠ loopName → c.get? x = d.get? x
  sent : ∃ sent, c.log.sent.toList = before ++ sent ∧ d.log.sent.toList = before' ++ sent

namespace Agree

variable {names : List String} {before before' : List Value} {c d : Context} {x : String}

/-- Agreement goes both ways. -/
theorem symm (h : Agree names before before' c d) : Agree names before' before d c := by
  obtain ⟨sent, hc, hd⟩ := h.sent
  exact ⟨h.model.symm, h.loop.symm, fun x hx hne => (h.vars x hx hne).symm, sent, hd, hc⟩

/-- A name has the same value in both. -/
theorem lookup (h : Agree names before before' c d) (hx : x ∈ names) : c.lookup x = d.lookup x := by
  unfold Context.lookup
  split
  · exact h.loop
  · rename_i hne
    exact h.vars x hx hne

/-- Giving a name the same value in both preserves agreement. -/
theorem bind (h : Agree names before before' c d) (x : String) (v : Value) :
    Agree names before before' (c.bind x v) (d.bind x v) := by
  unfold Context.bind
  split
  · exact ⟨h.model, rfl, h.vars, h.sent⟩
  · refine ⟨h.model, h.loop, fun y hy hne => ?_, h.sent⟩
    show Entries.find? y (Entries.insert x v c.vars) = Entries.find? y (Entries.insert x v d.vars)
    rw [Entries.find?_insert, Entries.find?_insert]
    split
    · rfl
    · exact h.vars y hy hne

/-- Sending the same value to both logs preserves agreement. -/
theorem send (h : Agree names before before' c d) (v : Value) :
    Agree names before before' { c with log := c.log.send v } { d with log := d.log.send v } := by
  obtain ⟨sent, hc, hd⟩ := h.sent
  refine ⟨h.model, h.loop, h.vars, sent ++ [v], ?_, ?_⟩
  · show (c.log.sent.push v).toList = _
    rw [Array.toList_push, hc, List.append_assoc]
  · show (d.log.sent.push v).toList = _
    rw [Array.toList_push, hd, List.append_assoc]

/-- Setting both loop slots alike preserves agreement. -/
theorem setLoop (h : Agree names before before' c d) (v : Option Value) :
    Agree names before before' { c with loop := v } { d with loop := v } :=
  ⟨h.model, rfl, h.vars, h.sent⟩

end Agree

/-! ## Steps of programs -/

namespace Run

variable {names : List String} {before before' : List Value} {x : String}

/-- Loops respect agreement.  Bounds that are large enough in both contexts show it of a counted
loop. -/
theorem loopLaw_respects : LoopLaw (Respects (Agree names before before')) where
  toLaw := law_respects _
  setLoop v := respects_modify fun _ _ h => h.setLoop (some v)
  ownLoop {m} hm c d h := by
    unfold ownLoop
    obtain ⟨r, c', d', hc, hd, h'⟩ | ⟨hc, hd⟩ := (hm _ _ (h.setLoop none)).elim
    · rw [hc, hd, h.loop]
      exact .ends (h'.setLoop d.loop)
    · rw [hc, hd]
      exact .never
  never _ _ _ := .never
  limit hms happroaches c d h := by
    obtain ⟨n, hn⟩ := happroaches c
    obtain ⟨k, hk⟩ := happroaches d
    have halike := hms (max n k) c d h
    rwa [hn _ (Nat.le_max_left n k), hk _ (Nat.le_max_right n k)] at halike

/-- Reading a named variable respects agreement. -/
theorem lookup_respects (hx : x ∈ names) : Respects (Agree names before before') (lookup x) := by
  intro c d h
  rw [lookup_apply, lookup_apply, h.lookup hx]
  cases d.lookup x with
  | some v => exact .ends h
  | none => exact .ends h

/-- Writing a variable respects agreement. -/
theorem bind_respects (x : String) (v : Value) :
    Respects (Agree names before before') (Run.bind x v) :=
  respects_modify fun _ _ h => h.bind x v

/-- Changing a named variable respects agreement. -/
theorem update_respects (hx : x ∈ names) (change : Value → Except Fault Value) :
    Respects (Agree names before before') (update x change) := by
  refine (law_respects _).bind (lookup_respects hx) fun old => ?_
  cases change old with
  | ok new => exact bind_respects x new
  | error f => exact fun _ _ h => .ends h

/-- Assigning to a named variable, or along a path from it, respects agreement. -/
theorem store_respects (hx : x ∈ names) (keys : List Key) (op : AssignOp) (v : Value) :
    Respects (Agree names before before') (store x keys op v) := by
  unfold store
  split
  · exact update_respects hx _
  · split
    · exact bind_respects x v
    · exact update_respects hx _

/-- Asking the model respects agreement. -/
theorem domainObject_respects (f : Builtin) (find : Model → Value → Option Value) (id : Value) :
    Respects (Agree names before before') (domainObject f find id) := by
  intro c d h
  rw [domainObject_apply, domainObject_apply, h.model]
  cases d.model with
  | some m => exact .ends h
  | none => exact .ends h

end Run

/-! ## Programs -/

/-- Statements of named variables respect agreement. -/
theorem Stmt.execAll_respects {names : List String} {before before' : List Value}
    {ss : List Stmt} (h : ∀ x ∈ Program.names ss, x ∈ names) :
    Run.Respects (Agree names before before') (Stmt.execAll ss) := by
  apply Stmt.execAll_law Run.loopLaw_respects
  intro s hs
  have hnames : ∀ x ∈ s.mentions, x ∈ names := fun x hx => h x (List.mem_flatMap.mpr ⟨s, hs, hx⟩)
  apply Stmt.obeys_of_mentions
  · exact fun v => Run.respects_modify fun _ _ h => h.send v
  · exact Run.domainObject_respects
  · exact fun x hx => Run.lookup_respects (hnames x hx)
  · exact fun x hx change _ => Run.update_respects (hnames x hx) change
  · exact fun x hx => Run.store_respects (hnames x hx)

/-- Statements that succeed in one of two contexts which agree on their names succeed in the other
one as well, and what they leave agrees. -/
theorem Stmt.exists_execAll_of_agree {ss : List Stmt} {before before' : List Value}
    {c c' d : Context} (h : Agree (Program.names ss) before before' c d)
    (hc : Stmt.execAll ss c = some (.ok (), c')) :
    ∃ d', Stmt.execAll ss d = some (.ok (), d') ∧ Agree (Program.names ss) before before' c' d' := by
  have halike := Stmt.execAll_respects (fun _ hx => hx) c d h
  rw [hc] at halike
  obtain ⟨_, _, d', heq, hd, hend⟩ | ⟨heq, -⟩ := halike.elim
  · cases heq
    exact ⟨d', hd, hend⟩
  · cases heq

/-- No program writes a host variable `$val`. -/
theorem Stmt.execAll_keeps_host_val (ss : List Stmt) :
    Run.Keeps (·.get? loopName) (Stmt.execAll ss) := by
  have hbind : ∀ (x : String) (c : Context) (v : Value),
      (c.bind x v).get? loopName = c.get? loopName := by
    intro x c v
    unfold Context.bind
    split
    · rfl
    · rename_i hne
      exact Entries.find?_insert_of_ne hne v c.vars
  have hown : ∀ e : Expr, e.Own (Run.Keeps (·.get? loopName)) := fun e =>
    Expr.own_keeps (fun _ _ => rfl) fun root _ => hbind root
  refine Stmt.execAll_law (Run.loopLaw_keeps _ fun _ _ => rfl) ss fun s _ => ?_
  refine ⟨⟨?_, ?_⟩, fun x _ => hown x⟩
  · rintro target op value - keys v -
    exact Run.store_keeps (hbind target.root) keys op v
  · exact fun f args _ => hown _

/-- A host variable `$val` stays as it is. -/
theorem Program.get?_loopName_run {p : Program} {c : Context} {o : Outcome} (h : p.run c = some o) :
    o.context.get? loopName = c.get? loopName := by
  obtain ⟨r, d, hd, rfl⟩ := Program.run_eq_some_iff.mp h
  exact Stmt.execAll_keeps_host_val p { c with loop := none } r d hd

/-- Two contexts with the same model that agree on the variables which a program names, other than
`$val`, lead to the same outcome, or to none in both: the same fault or none, the same values of
these variables, and the same values sent to the log.  A host variable `$val` stays as it is. -/
theorem Program.run_agrees (p : Program) (c d : Context) (hmodel : c.model = d.model)
    (hvars : ∀ x ∈ p.names, x ≠ loopName → c.get? x = d.get? x) :
    (p.run c = none ∧ p.run d = none) ∨
    ∃ o o', p.run c = some o ∧ p.run d = some o' ∧ o.fault? = o'.fault? ∧
      (∀ x ∈ p.names, x ≠ loopName → o.context.get? x = o'.context.get? x) ∧
      (∃ sent, o.context.log.sent.toList = c.log.sent.toList ++ sent ∧
        o'.context.log.sent.toList = d.log.sent.toList ++ sent) ∧
      o.context.get? loopName = c.get? loopName := by
  have hstart : Agree p.names c.log.sent.toList d.log.sent.toList { c with loop := none }
      { d with loop := none } := by
    refine ⟨hmodel, rfl, hvars, [], ?_, ?_⟩
    · exact (List.append_nil _).symm
    · exact (List.append_nil _).symm
  have hrun := Stmt.execAll_respects (fun x hx => hx) _ _ hstart
  obtain ⟨r, c', d', hc, hd, h⟩ | ⟨hc, hd⟩ := hrun.elim
  · have hc' := Program.run_eq_some_iff.mpr ⟨r, c', hc, rfl⟩
    have hd' := Program.run_eq_some_iff.mpr ⟨r, d', hd, rfl⟩
    exact .inr ⟨_, _, hc', hd', rfl, h.vars, h.sent, Program.get?_loopName_run hc'⟩
  · refine .inl ⟨?_, ?_⟩
    · unfold Program.run Run.ownLoop
      rw [hc]
    · unfold Program.run Run.ownLoop
      rw [hd]

/-- A program that asks for the node of `y`, writes `x` and logs it, run in contexts that differ in
`$val`, in an unnamed variable and in where the log goes.  Their model knows texts, but no
numbers. -/
theorem Program.run_agrees_logging :
    let p : Program := [.assign (.ident "x") .add (.call "GETNODE" [.ident "y"]),
      .call "LOG" [.ident "x"]]
    let m : Model := ⟨fun | .text s => some (.text s) | _ => none, fun _ => none⟩
    let c : Context := ⟨[("x", .text "r"), ("y", .text "s")], none, some m, Log.empty .buffer⟩
    let d : Context := ⟨[("$val", .bool true), ("x", .text "r"), ("y", .text "s"), ("z", .absent)],
      none, some m, Log.empty .silent⟩
    ∃ o o', p.run c = some o ∧ p.run d = some o' ∧ o.fault? = o'.fault? ∧
      o.context.get? "x" = o'.context.get? "x" := by
  intro p m c d
  have hnames : p.names = ["x", "y", "x"] := by decide
  have hvars : ∀ x ∈ p.names, x ≠ loopName → c.get? x = d.get? x := by
    intro x hx _
    rw [hnames] at hx
    rcases List.mem_cons.mp hx with rfl | hx
    · rfl
    · rcases List.mem_cons.mp hx with rfl | hx
      · rfl
      · obtain rfl := List.mem_singleton.mp hx
        rfl
  obtain ⟨hnone, -⟩ | ⟨o, o', hc, hd, hfault, hsame, -, -⟩ := Program.run_agrees p c d rfl hvars
  · obtain ⟨o, ho⟩ : ∃ o, p.run c = some o := ⟨_, rfl⟩
    rw [hnone] at ho
    cases ho
  · exact ⟨o, o', hc, hd, hfault, hsame "x" (by decide) (by decide)⟩

end Edict

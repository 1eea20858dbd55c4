import Edict.Proofs.Run.Agreement
import Edict.Proofs.Run.Splitting

/-!
# Statements in another order

Two statements may be exchanged if neither writes a variable that the other one mentions, and both
mention `$val` in bodies of loops only.  Both orders then leave the same variables; only the log may
show which statement came first.

What one statement leaves is, for the other one, no different from what was there before: the
variables that it mentions are not written, and the loop slot is as empty as it was.  So it does the
same in both orders, and neither order disturbs what the other statement has written.

## Main definitions

* `Program.Spares`: a program leaves alone what another one mentions.

## Main statements

* `Program.agree_after`: for a program that is spared, nothing has changed.
* `Stmt.run_commutes`: statements that spare each other may be exchanged.  This is about runs that
  succeed; of a run that fails, the order may decide where.
-/

namespace Edict

/-! ## Independence -/

/-- The first program writes no variable that the second one mentions, and leaves the loop slot to
loops. -/
structure Program.Spares (p q : Program) : Prop where
  written : ∀ x ∈ p.written, x ≠ loopName → x ∉ q.names
  outside : loopName ∉ p.namesOutside

/-- A program that mentions `$val` in bodies of loops only leaves an empty slot empty. -/
theorem Stmt.execAll_keepsEmpty_of_outside {ss : List Stmt}
    (h : loopName ∉ Program.namesOutside ss) : Run.Moves KeepsEmpty (Stmt.execAll ss) := by
  apply Stmt.execAll_keepsEmpty
  intro s hs hset
  apply h
  exact List.mem_flatMap.mpr ⟨s, hs, Stmt.mem_mentions_of_target? (Stmt.target?_of_introduced? hset)⟩

section exchange

variable {p q : Program} {c c₁ c₂ : Context}

/-- A program leaves what it does not write, and a host variable `$val`. -/
theorem Program.get?_eq_of_execAll (hp : Stmt.execAll p c = some (.ok (), c₁)) {x : String}
    (h : x ∉ p.written ∨ x = loopName) : c₁.get? x = c.get? x := by
  have hframe : Frame p.written p.introduced c c₁ :=
    Stmt.execAll_moves p (fun _ hx => hx) (fun _ hx => hx) c _ c₁ hp
  exact hframe.kept x h

/-- For a program that is spared, the context that another one leaves is no different from the one
in which that began. -/
theorem Program.agree_after (h : p.Spares q) (hc : c.loop = none)
    (hp : Stmt.execAll p c = some (.ok (), c₁)) :
    Agree q.names c₁.log.sent.toList c.log.sent.toList c₁ c := by
  have hslot : c₁.loop = none := Stmt.execAll_keepsEmpty_of_outside h.outside c _ c₁ hp hc
  have hframe : Frame p.written p.introduced c c₁ :=
    Stmt.execAll_moves p (fun _ hx => hx) (fun _ hx => hx) c _ c₁ hp
  refine ⟨hframe.model, hslot.trans hc.symm, fun x hx hne => ?_, [], by simp, by simp⟩
  apply Program.get?_eq_of_execAll hp
  exact .inl fun hwritten => h.written x hwritten hne hx

/-! ## Exchange -/

/-- Two programs that spare each other may be run in the other order. -/
theorem Program.exists_execAll_swapped (hpq : p.Spares q) (hqp : q.Spares p) (hc : c.loop = none)
    (hp : Stmt.execAll p c = some (.ok (), c₁)) (hq : Stmt.execAll q c₁ = some (.ok (), c₂)) :
    ∃ d₁ d₂, Stmt.execAll q c = some (.ok (), d₁) ∧ Stmt.execAll p d₁ = some (.ok (), d₂) ∧
      ∀ x, c₂.get? x = d₂.get? x := by
  obtain ⟨d₁, hd₁, hqend⟩ := Stmt.exists_execAll_of_agree (Program.agree_after hpq hc hp) hq
  obtain ⟨d₂, hd₂, hpend⟩ :=
    Stmt.exists_execAll_of_agree (Program.agree_after hqp hc hd₁).symm hp
  refine ⟨d₁, d₂, hd₁, hd₂, fun x => ?_⟩
  by_cases hval : x = loopName
  · -- no program writes a host variable `$val`
    calc c₂.get? x
        = c₁.get? x := Program.get?_eq_of_execAll hq (.inr hval)
      _ = c.get? x := Program.get?_eq_of_execAll hp (.inr hval)
      _ = d₁.get? x := (Program.get?_eq_of_execAll hd₁ (.inr hval)).symm
      _ = d₂.get? x := (Program.get?_eq_of_execAll hd₂ (.inr hval)).symm
  by_cases hxp : x ∈ p.names
  · have hxq : x ∉ q.written := fun hx => hqp.written x hx hval hxp
    exact (Program.get?_eq_of_execAll hq (.inl hxq)).trans (hpend.vars x hxp hval)
  have hxp' : x ∉ p.written := fun hx => hxp (p.written_subset_names hx)
  by_cases hxq : x ∈ q.names
  · exact (hqend.vars x hxq hval).trans (Program.get?_eq_of_execAll hd₂ (.inl hxp')).symm
  have hxq' : x ∉ q.written := fun hx => hxq (q.written_subset_names hx)
  calc c₂.get? x
      = c₁.get? x := Program.get?_eq_of_execAll hq (.inl hxq')
    _ = c.get? x := Program.get?_eq_of_execAll hp (.inl hxp')
    _ = d₁.get? x := (Program.get?_eq_of_execAll hd₁ (.inl hxq')).symm
    _ = d₂.get? x := (Program.get?_eq_of_execAll hd₂ (.inl hxp')).symm

/-- A run that succeeds in both of its parts. -/
theorem Program.run_append_of_ok (hp : Stmt.execAll p { c with loop := none } = some (.ok (), c₁))
    (hq : Stmt.execAll q c₁ = some (.ok (), c₂)) :
    Program.run (p ++ q) c = some ⟨none, { c₂ with loop := c.loop }⟩ := by
  refine Program.run_eq_some_iff.mpr ⟨.ok (), c₂, ?_, rfl⟩
  rw [Stmt.execAll_append, Run.bind_apply, hp]
  exact hq

/-- If a run succeeds, both of its parts do. -/
theorem Program.exists_of_run_append_ok {o : Outcome} (h : Program.run (p ++ q) c = some o)
    (hok : o.fault? = none) :
    ∃ c₁ c₂, Stmt.execAll p { c with loop := none } = some (.ok (), c₁) ∧
      Stmt.execAll q c₁ = some (.ok (), c₂) ∧ o = ⟨none, { c₂ with loop := c.loop }⟩ := by
  obtain ⟨f | ⟨⟨⟩⟩, c₂, hpq, rfl⟩ := Program.run_eq_some_iff.mp h
  · cases hok
  · rw [Stmt.execAll_append] at hpq
    obtain ⟨_, c₁, hp, hq⟩ := Run.exists_of_bind_ok hpq
    exact ⟨c₁, c₂, hp, hq, rfl⟩

end exchange

/-- If neither of two statements writes a variable that the other one mentions, and both mention
`$val` in bodies of loops only, then they may be exchanged: if they succeed in one order, they
succeed in the other one and leave the same variables. -/
theorem Stmt.run_commutes (s t : Stmt) (c : Context) (hst : Program.Spares [s] [t])
    (hts : Program.Spares [t] [s]) (o : Outcome) (ho : Program.run [s, t] c = some o)
    (hok : o.fault? = none) :
    ∃ o', Program.run [t, s] c = some o' ∧ o'.fault? = none ∧
      ∀ x, o.context.get? x = o'.context.get? x := by
  obtain ⟨c₁, c₂, hs, ht, rfl⟩ := Program.exists_of_run_append_ok (p := [s]) (q := [t]) ho hok
  obtain ⟨d₁, d₂, ht', hs', hvars⟩ := Program.exists_execAll_swapped hst hts rfl hs ht
  exact ⟨_, Program.run_append_of_ok ht' hs', rfl, hvars⟩

/-- Two loops that share the loop slot: one appends its values to a list, the other one adds what an
index appends to a second list. -/
theorem Stmt.run_commutes_loops :
    let s : Stmt := .each (.literals [.text "a", .text "b"])
      [.call "append" [.ident "l", .ident "$val"]]
    let t : Stmt := .each (.reference (.ident "m")) [
      .assign (.ident "x") .add (.property "n" [.field "f"]),
      .call "append" [.property "n" [.index (.ident "$val")], .ident "x"]]
    let c : Context := ⟨[("l", .list []), ("m", .list [.text "g"]),
      ("n", .map [("f", .text "d"), ("g", .list [])]), ("x", .text "")], some .absent, none,
      Log.empty .silent⟩
    Program.Spares [s] [t] ∧ Program.Spares [t] [s] ∧
      ∃ o o', Program.run [s, t] c = some o ∧ o.fault? = none ∧ Program.run [t, s] c = some o' ∧
        o'.fault? = none ∧ ∀ x, o.context.get? x = o'.context.get? x := by
  intro s t c
  have hst : Program.Spares [s] [t] := ⟨by decide, by decide⟩
  have hts : Program.Spares [t] [s] := ⟨by decide, by decide⟩
  obtain ⟨o, ho, hok⟩ : ∃ o, Program.run [s, t] c = some o ∧ o.fault? = none := ⟨_, rfl, rfl⟩
  obtain ⟨o', ho', hok', hvars⟩ := Stmt.run_commutes s t c hst hts o ho hok
  exact ⟨hst, hts, o, o', ho, hok, ho', hok', hvars⟩

end Edict

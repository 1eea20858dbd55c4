import Edict.Compile
import Edict.Proofs.Number.Index
import Edict.Proofs.Run.Ending

/-!
# Counted loops

A counted loop is asked for a number of turns, its count rounded up (`Number.times`).  Up to
`2 ^ 53` it does what it is asked for: it runs its body that often, and `$val` is `0` in the first
turn and one more in each turn after it.  No body has an influence on that, because the index is not
kept where a body could change it.

Above `2 ^ 53` it does not.  Its index gets stuck at `2 ^ 53`, below the count, so that the loop
never gets through: it goes on until its body fails in some turn, and if its body never fails, it
has no end.  Nothing is said about when a body fails, which may be in any turn.

## Main definitions

* `Run.RunsTimes`: a loop does what it is asked for.
* `Stmt.Asks`, `Stmt.AsksAll`: in its run from a context, a statement asks a loop for so many turns.

## Main statements

* `Run.count_eq`: a loop that is asked for no more than `2 ^ 53` turns has that many.
* `Run.count_ne_ok`: a loop that is asked for more never gets through.
* `Run.runsTimes_iff`: when a loop does what it is asked for.
* `Program.run_counts`: a program has an end if no loop in its run is asked for more than `2 ^ 53`
  turns.  The converse is false, since a body may fail.
-/

namespace Edict

namespace Run

variable (body : Run Unit)

/-! ## Turns of a loop -/

/-- The first `n` values that a counted loop gives to `$val`. -/
def indices (n : Nat) : List Value := (List.range n).map fun k => .number (Number.index k)

/-- One more turn has one more value. -/
theorem indices_succ (n : Nat) : indices (n + 1) = indices n ++ [.number (Number.index n)] := by
  unfold indices
  rw [List.range_succ, List.map_append]
  rfl

/-- Turns after turns. -/
theorem forEach_append (vs ws : List Value) :
    forEach body (vs ++ ws) = forEach body vs >>= fun _ => forEach body ws := by
  induction vs with
  | nil => rfl
  | cons v vs ih =>
      show (setLoop v >>= fun _ => body >>= fun _ => forEach body (vs ++ ws)) = _
      rw [ih]
      simp only [forEach, bind_assoc]

/-- Turns go well if the body always does. -/
theorem exists_forEach_ok (h : ∀ c, ∃ d, body c = some (.ok (), d)) (vs : List Value) (c : Context) :
    ∃ d, forEach body vs c = some (.ok (), d) := by
  induction vs generalizing c with
  | nil => exact ⟨c, rfl⟩
  | cons v vs ih =>
      obtain ⟨d, hd⟩ := h { c with loop := some v }
      rw [forEach, turn_apply, hd]
      exact ih d

/-- So does a counted loop, if it has an end. -/
theorem countUp_eq_ok (h : ∀ c, ∃ d, body c = some (.ok (), d)) {limit index : Float}
    {c d : Context} {r : Except Fault Unit} (hend : countUp body limit index c = some (r, d)) :
    r = .ok () := by
  refine countUp.partial_correctness body limit (fun _ _ t => t.1 = .ok ()) ?_ index c (r, d) hend
  intro rest ih index c t ht
  obtain ⟨e, he⟩ := h { c with loop := some (.number index) }
  rw [he] at ht
  split at ht
  · exact ih _ e t ht
  · cases ht
    rfl

/-- As long as its index is below the limit, a loop has turns. -/
theorem countUp_eq_bind {limit : Float} {n : Nat} (h : ∀ k < n, Number.index k < limit) :
    (countUp body limit 0 : Run Unit) =
      forEach body (indices n) >>= fun _ => countUp body limit (Number.index n) := by
  induction n with
  | zero => rfl
  | succ n ih =>
      have hturn : (countUp body limit (Number.index n) : Run Unit) =
          forEach body [.number (Number.index n)] >>= fun _ =>
            countUp body limit (Number.index (n + 1)) := by
        rw [countUp_eq, if_pos (h n (Nat.lt_succ_self n))]
        simp only [forEach, bind_assoc, pure_bind]
        rfl
      rw [ih fun k hk => h k (Nat.lt_succ_of_lt hk), hturn, indices_succ, forEach_append, bind_assoc]

/-! ## Loops that get through, and loops that do not -/

variable {limit : Float}

/-- The check before the first turn. -/
theorem starts_iff (limit : Float) : (limit.isFinite && decide (0 < limit)) = true ↔
    0 < Number.times limit := by
  rw [Number.times_pos_iff, Bool.and_eq_true, decide_eq_true_iff]

/-- A loop that is asked for no more than `2 ^ 53` turns has that many. -/
theorem count_eq (h : Number.times limit ≤ 2 ^ 53) :
    count body limit = ownLoop (forEach body (indices (Number.times limit))) := by
  unfold count
  rcases Nat.eq_zero_or_pos (Number.times limit) with hzero | hpos
  · rw [if_neg, hzero]
    · rfl
    · rw [starts_iff, hzero]
      exact lt_irrefl 0
  · obtain ⟨q, hq⟩ := (Number.isFinite_iff limit).mp ((Number.times_pos_iff limit).mp hpos).1
    -- the index of the last turn is the last one below the limit
    have hlast : (countUp body limit (Number.index (Number.times limit)) : Run Unit) =
        (pure () : Run Unit) := by
      rw [countUp_eq, if_neg]
      rw [Number.index_lt_iff h hq]
      exact lt_irrefl _
    have hturns := countUp_eq_bind body fun k hk => Number.index_lt (x := limit) hk
    rw [hlast, bind_pure_unit] at hturns
    rw [if_pos ((starts_iff limit).mpr hpos)]
    exact congrArg ownLoop hturns

section many

variable (h : 2 ^ 53 < Number.times limit)
include h

/-- The index of a loop that is asked for more turns is never above the count. -/
theorem index_lt_of_many (k : Nat) : Number.index k < limit := by
  rcases Nat.lt_or_ge k (2 ^ 53) with hsmall | hlarge
  · exact Number.index_lt (hsmall.trans h)
  · rw [Number.index_of_ge hlarge]
    exact Number.index_lt h

/-- From `2 ^ 53` on the index stays where it is, so the loop has an end only if its body fails. -/
theorem exists_fault_of_stuck {c d : Context} {r : Except Fault Unit}
    (hend : countUp body limit (Number.index (2 ^ 53)) c = some (r, d)) : ∃ f, r = .error f := by
  refine countUp.partial_correctness body limit
    (fun index _ t => index = Number.index (2 ^ 53) → ∃ f, t.1 = .error f) ?_ _ c (r, d) hend rfl
  rintro rest ih index c t ht rfl
  rw [if_pos (Number.index_lt h)] at ht
  split at ht
  · exact ih _ _ t ht Number.index_full_add_one
  · cases ht
    exact ⟨_, rfl⟩
  · cases ht

/-- A loop that is asked for more than `2 ^ 53` turns never gets through. -/
theorem count_ne_ok (c d : Context) : count body limit c ≠ some (.ok (), d) := by
  intro hcount
  unfold count at hcount
  rw [if_pos ((starts_iff limit).mpr (Nat.zero_lt_of_lt h))] at hcount
  obtain ⟨e, hend, -⟩ := ownLoop_eq_some_iff.mp hcount
  have hturns := countUp_eq_bind body fun k (_ : k < 2 ^ 53) => index_lt_of_many h k
  obtain ⟨⟨⟩, e', -, hstuck⟩ := exists_of_bind_ok ((congrFun hturns _).symm.trans hend)
  obtain ⟨f, hf⟩ := exists_fault_of_stuck body h hstuck
  cases hf

/-- If its body never fails, such a loop has no end. -/
theorem count_eq_none (hbody : ∀ c, ∃ d, body c = some (.ok (), d)) (c : Context) :
    count body limit c = none := by
  rcases hcount : count body limit c with _ | ⟨g | ⟨⟨⟩⟩, d⟩
  · rfl
  · unfold count at hcount
    rw [if_pos ((starts_iff limit).mpr (Nat.zero_lt_of_lt h))] at hcount
    obtain ⟨e, hend, -⟩ := ownLoop_eq_some_iff.mp hcount
    have hok : (Except.error g : Except Fault Unit) = .ok () := countUp_eq_ok body hbody hend
    cases hok
  · exact absurd hcount (count_ne_ok body h c d)

end many

/-- The loop runs its body as often as it is asked to, with `0`, `1`, … as `$val`; it does not get
through all turns only if its body fails, or has no end, in one of those that it had. -/
def RunsTimes (limit : Float) (c : Context) : Prop :=
  ∃ n ≤ Number.times limit, (∀ k < n, Number.value? (Number.index k) = some (k : ℚ)) ∧
    count body limit c = ownLoop (forEach body (indices n)) c ∧
    (n < Number.times limit → ∀ d, forEach body (indices n) { c with loop := none } ≠ some (.ok (), d))

/-- The first turns go well if more of them do. -/
theorem exists_ok_of_le {m n : Nat} (h : m ≤ n) {c d : Context}
    (hn : forEach body (indices n) c = some (.ok (), d)) :
    ∃ e, forEach body (indices m) c = some (.ok (), e) := by
  induction n, h using Nat.le_induction generalizing d with
  | base => exact ⟨d, hn⟩
  | succ n _ ih =>
      rw [indices_succ, forEach_append] at hn
      obtain ⟨⟨⟩, e, he, -⟩ := exists_of_bind_ok hn
      exact ih he

/-- Of a sequence whose first part does not succeed, the first part decides. -/
theorem bind_eq_of_ne_ok {m : Run Unit} {f : Unit → Run Unit} {c : Context}
    (h : ∀ d, m c ≠ some (.ok (), d)) : (m >>= f) c = m c := by
  rw [bind_apply]
  rcases hm : m c with _ | ⟨g | ⟨⟨⟩⟩, d⟩
  · rfl
  · rfl
  · exact absurd hm (h d)

/-- A loop that is asked for more than `2 ^ 53` turns does what it is asked for exactly if its body
does not get through the first `2 ^ 53 + 1`. -/
theorem runsTimes_iff_of_many {n : Nat} (hn : n = 2 ^ 53 + 1) (h : 2 ^ 53 < Number.times limit)
    (c : Context) : RunsTimes body limit c ↔
      ∀ d, forEach body (indices n) { c with loop := none } ≠ some (.ok (), d) := by
  constructor
  · rintro ⟨m, -, hvalues, heq, -⟩ d hturns
    -- the values are those that are asked for up to `2 ^ 53`, so the loop would get through
    have hm : m ≤ n := by
      by_contra hlt
      have hstuck := (Number.value?_index_iff n).mp (hvalues n (Nat.lt_of_not_le hlt))
      omega
    obtain ⟨e, he⟩ := exists_ok_of_le body hm hturns
    exact count_ne_ok body h c _ (heq.trans (ownLoop_eq_some_iff.mpr ⟨e, he, rfl⟩))
  · intro hstops
    have hturns := countUp_eq_bind body fun k (_ : k < n) => index_lt_of_many h k
    have hsame := (congrFun hturns { c with loop := none }).trans (bind_eq_of_ne_ok hstops)
    refine ⟨n, by omega, fun k hk => Number.value?_index (by omega), ?_, fun _ => hstops⟩
    unfold count
    rw [if_pos ((starts_iff limit).mpr (Nat.zero_lt_of_lt h))]
    unfold ownLoop
    rw [hsame]

/-- A loop does what it is asked for exactly if that is no more than `2 ^ 53` turns, or if its body
does not get through the first `2 ^ 53 + 1`. -/
theorem runsTimes_iff (limit : Float) (c : Context) : RunsTimes body limit c ↔
    Number.times limit ≤ 2 ^ 53 ∨
      ∀ d, forEach body (indices (2 ^ 53 + 1)) { c with loop := none } ≠ some (.ok (), d) := by
  rcases Nat.lt_or_ge (2 ^ 53) (Number.times limit) with hmany | hfew
  · exact (runsTimes_iff_of_many body rfl hmany c).trans (or_iff_right (Nat.not_le.mpr hmany)).symm
  · refine iff_of_true ⟨_, le_rfl, fun k hk => ?_, ?_, fun h => ?_⟩ (.inl hfew)
    · exact Number.value?_index (hk.le.trans hfew)
    · rw [count_eq body hfew]
    · exact absurd h (lt_irrefl _)

/-! ## Turns that have an end -/

/-- One of the turns of a loop over values that begins with an empty slot, as the body finds it. -/
def Turn (vs : List Value) (c e : Context) : Prop :=
  ∃ before v after d, vs = before ++ v :: after ∧
    forEach body before { c with loop := none } = some (.ok (), d) ∧ e = { d with loop := some v }

/-- A loop over values has an end if its body has one in each turn. -/
theorem forEach_ending {vs : List Value} {c : Context}
    (h : ∀ before v after d, vs = before ++ v :: after →
      forEach body before c = some (.ok (), d) → ∃ r e, body { d with loop := some v } = some (r, e)) :
    ∃ r d, forEach body vs c = some (r, d) := by
  induction vs generalizing c with
  | nil => exact ⟨_, c, rfl⟩
  | cons v vs ih =>
      rw [forEach, turn_apply]
      obtain ⟨f | ⟨⟨⟩⟩, d, hd⟩ := h [] v vs c rfl rfl
      · exact ⟨.error f, d, by rw [hd]⟩
      · rw [hd]
        refine ih fun before w after e hsplit hbefore => ?_
        refine h (v :: before) w after e (congrArg (v :: ·) hsplit) ?_
        rw [forEach, turn_apply, hd]
        exact hbefore

/-- The same of a loop with a slot of its own. -/
theorem ownLoop_forEach_ending {vs : List Value} {c : Context}
    (h : ∀ e, Turn body vs c e → ∃ r d, body e = some (r, d)) :
    ∃ r d, ownLoop (forEach body vs) c = some (r, d) := by
  have hturns : ∃ r d, forEach body vs { c with loop := none } = some (r, d) :=
    forEach_ending body fun before v after d hsplit hbefore =>
      h _ ⟨before, v, after, d, hsplit, hbefore, rfl⟩
  obtain ⟨r, d, hd⟩ := hturns
  exact ⟨r, _, ownLoop_eq_some_iff.mpr ⟨d, hd, rfl⟩⟩

end Run

/-! ## Programs -/

mutual

/-- In the run of a statement from a context, the count of a loop is evaluated that asks for `n`
turns. -/
inductive Stmt.Asks : Stmt → Context → Nat → Prop
  | thenBody {condition : Expr} {t : List Stmt} {e : Option (List Stmt)} {c d : Context} {v : Value}
      {n : Nat} : condition.eval c = some (.ok v, d) → v.truthy = true → Stmt.AsksAll t d n →
      Stmt.Asks (.branch condition t e) c n
  | elseBody {condition : Expr} {t e : List Stmt} {c d : Context} {v : Value} {n : Nat} :
      condition.eval c = some (.ok v, d) → v.truthy = false → Stmt.AsksAll e d n →
      Stmt.Asks (.branch condition t (some e)) c n
  /-- The count itself. -/
  | count {limit : Expr} {body : List Stmt} {c d : Context} {x : Float} :
      limit.eval c = some (.ok (.number x), d) →
      Stmt.Asks (.count limit body) c (Number.times x)
  /-- A turn of a counted loop. -/
  | countTurn {limit : Expr} {body : List Stmt} {c d e : Context} {x : Float} {n : Nat} :
      limit.eval c = some (.ok (.number x), d) →
      Run.Turn (Stmt.execAll body) (Run.indices (Number.times x)) d e → Stmt.AsksAll body e n →
      Stmt.Asks (.count limit body) c n
  /-- A turn of a loop over elements. -/
  | eachTurn {source : Source} {body : List Stmt} {c d e : Context} {items : List Value} {n : Nat} :
      source.elements c = some (.ok items, d) → Run.Turn (Stmt.execAll body) items d e →
      Stmt.AsksAll body e n → Stmt.Asks (.each source body) c n

/-- The same for statements in order. -/
inductive Stmt.AsksAll : List Stmt → Context → Nat → Prop
  | head {s : Stmt} {ss : List Stmt} {c : Context} {n : Nat} : Stmt.Asks s c n →
      Stmt.AsksAll (s :: ss) c n
  | tail {s : Stmt} {ss : List Stmt} {c d : Context} {n : Nat} : s.exec c = some (.ok (), d) →
      Stmt.AsksAll ss d n → Stmt.AsksAll (s :: ss) c n

end

open Stmt (Asks AsksAll)

mutual

/-- A statement has an end if no loop in its run is asked for more than `2 ^ 53` turns. -/
theorem Stmt.exec_ending : ∀ (s : Stmt) (c : Context), (∀ n, Asks s c n → n ≤ 2 ^ 53) →
    ∃ r d, s.exec c = some (r, d)
  | .assign target op value, c, _ => Stmt.assign_ending target op value c
  | .branch condition t none, c, h => by
      rw [Stmt.exec]
      refine Run.bind_ending (condition.eval_ending c) fun v d hv => ?_
      split
      · exact Stmt.execAll_ending t d fun n hn => h n (.thenBody hv ‹_› hn)
      · exact ⟨_, d, rfl⟩
  | .branch condition t (some e), c, h => by
      rw [Stmt.exec]
      refine Run.bind_ending (condition.eval_ending c) fun v d hv => ?_
      split
      · exact Stmt.execAll_ending t d fun n hn => h n (.thenBody hv ‹_› hn)
      · rename_i hfalse
        exact Stmt.execAll_ending e d fun n hn =>
          h n (.elseBody hv (eq_false_of_ne_true hfalse) hn)
  | .count limit body, c, h => by
      rw [Stmt.exec]
      refine Run.bind_ending (limit.eval_ending c) fun v d hv => ?_
      cases v with
      | number x =>
          dsimp only
          rw [Run.count_eq _ (h _ (.count hv))]
          exact Run.ownLoop_forEach_ending _ fun e hturn =>
            Stmt.execAll_ending body e fun n hn => h n (.countTurn hv hturn hn)
      | _ => exact ⟨_, d, rfl⟩
  | .each source body, c, h => by
      rw [Stmt.exec]
      refine Run.bind_ending (source.elements_ending c) fun items d hitems => ?_
      exact Run.ownLoop_forEach_ending _ fun e hturn =>
        Stmt.execAll_ending body e fun n hn => h n (.eachTurn hitems hturn hn)
  | .call f args, c, _ => Stmt.call_ending f args c

/-- The same for statements in order. -/
theorem Stmt.execAll_ending : ∀ (ss : List Stmt) (c : Context), (∀ n, AsksAll ss c n → n ≤ 2 ^ 53) →
    ∃ r d, Stmt.execAll ss c = some (r, d)
  | [], c, _ => ⟨_, c, rfl⟩
  | s :: ss, c, h => by
      rw [Stmt.execAll]
      refine Run.bind_ending (Stmt.exec_ending s c fun n hn => h n (.head hn)) fun _ d hd => ?_
      exact Stmt.execAll_ending ss d fun n hn => h n (.tail hd hn)

end

/-- A program has an end if no loop in its run is asked for more than `2 ^ 53` turns; and a loop
that has the program as its body does what it is asked for exactly if that is no more than `2 ^ 53`
turns, or if the program does not get through the first `2 ^ 53 + 1`. -/
theorem Program.run_counts (p : Program) (c : Context) (limit : Float) :
    ((∀ n, AsksAll p { c with loop := none } n → n ≤ 2 ^ 53) → ∃ o, p.run c = some o) ∧
    (Run.RunsTimes (Stmt.execAll p) limit c ↔ Number.times limit ≤ 2 ^ 53 ∨
      ∀ d, Run.forEach (Stmt.execAll p) (Run.indices (2 ^ 53 + 1)) { c with loop := none } ≠
        some (.ok (), d)) := by
  refine ⟨fun hfew => ?_, Run.runsTimes_iff (Stmt.execAll p) limit c⟩
  obtain ⟨r, d, hd⟩ := Stmt.execAll_ending p _ hfew
  exact ⟨_, Program.run_eq_some_iff.mpr ⟨r, d, hd, rfl⟩⟩

/-- A program that asks for two and a half turns, which makes three. -/
theorem Program.run_counts_three :
    let body : Program := [.assign (.ident "$x") .set (.ident "$val")]
    let p : Program := [.count (.lit (.number 2.5)) body]
    let c := Context.empty .buffer
    (∀ n, AsksAll p { c with loop := none } n → n ≤ 2 ^ 53) ∧ (∃ o, p.run c = some o) ∧
      Number.times 2.5 = 3 ∧ Run.RunsTimes (Stmt.execAll body) 2.5 c := by
  intro body p c
  have htimes : Number.times 2.5 = 3 := by decide +kernel
  have hfew : ∀ n, AsksAll p { c with loop := none } n → n ≤ 2 ^ 53 := by
    intro n hasks
    unfold p body at hasks
    cases hasks with
    | tail _ hrest => cases hrest
    | head hloop =>
        cases hloop with
        | count hlimit =>
            cases hlimit
            rw [htimes]
            decide
        | countTurn _ _ hbody =>
            cases hbody with
            | head hassign => cases hassign
            | tail _ hrest => cases hrest
  refine ⟨hfew, (Program.run_counts p c 2.5).1 hfew, htimes, ?_⟩
  refine (Program.run_counts body c 2.5).2.mpr (.inl ?_)
  rw [htimes]
  decide

/-- A program that asks for `2 ^ 53 + 2` turns of a body that never fails.  The run has no end, and
the loop does not do what it is asked for. -/
theorem Program.run_counts_stuck :
    let body : Program := [.assign (.ident "$x") .set (.lit (.number 1))]
    let p : Program := [.count (.lit (.number 9007199254740994)) body]
    let c := Context.empty .buffer
    Program.ofSource "for (9007199254740994) $x = 1" = .ok p ∧
      Number.times 9007199254740994 = 9007199254740994 ∧
      p.run c = none ∧
      ¬Run.RunsTimes (Stmt.execAll body) 9007199254740994 c := by
  intro body p c
  have hscan : Token.scan "for (9007199254740994) $x = 1" =
      .ok [⟨.keyword .forKw, ⟨0, 3⟩⟩, ⟨.symbol .lparen, ⟨4, 5⟩⟩,
        ⟨.number (.ofWritten false 9007199254740994), ⟨5, 21⟩⟩, ⟨.symbol .rparen, ⟨21, 22⟩⟩,
        ⟨.ident "$x", ⟨23, 25⟩⟩, ⟨.symbol .eq, ⟨26, 27⟩⟩, ⟨.number (.ofWritten false 1), ⟨28, 29⟩⟩,
        ⟨.eof, ⟨29, 29⟩⟩] := by decide +kernel
  have hread : Program.ofSource "for (9007199254740994) $x = 1" = .ok p := by
    unfold ofSource
    rw [hscan]
    with_unfolding_all rfl
  have htimes : Number.times 9007199254740994 = 9007199254740994 := by
    have hparts : Number.parts 9007199254740994 = .finite false 4503599627370497 1 := by
      decide +kernel
    unfold Number.times Number.value?
    rw [hparts]
    norm_num [Number.Parts.value?]
  have hmany : 2 ^ 53 < Number.times 9007199254740994 := by
    rw [htimes]
    decide
  have hturn : ∀ c, Stmt.execAll body c = some (.ok (), c.bind "$x" (.number 1)) := fun _ => rfl
  have hexec : Stmt.execAll p = Run.count (Stmt.execAll body) 9007199254740994 := by
    simp only [p, Stmt.execAll, Stmt.exec, Expr.eval, pure_bind]
    exact bind_pure_unit
  refine ⟨hread, htimes, ?_, fun hruns => ?_⟩
  · have hnone : Stmt.execAll p { c with loop := none } = none := by
      rw [hexec]
      exact Run.count_eq_none _ hmany (fun c => ⟨_, hturn c⟩) _
    unfold Program.run Run.ownLoop
    rw [hnone]
  · obtain hfew | hstops := (Run.runsTimes_iff _ _ c).mp hruns
    · exact Nat.not_lt.mpr hfew hmany
    · obtain ⟨d, hd⟩ := Run.exists_forEach_ok (Stmt.execAll body) (fun c => ⟨_, hturn c⟩)
        (Run.indices (2 ^ 53 + 1)) { c with loop := none }
      exact hstops d hd

end Edict

import Edict.Proofs.Grammar.ExpressionComplete
import Edict.Proofs.Grammar.Parallel

/-!
# Expressions are read in parallel

Each reader of expressions tracks itself on parallel lists.  The readers get the ones for what
stands in brackets as an argument, so these are assumed to track one another (`NestedTracks`) until
the knot is tied (`nested_tracks`).  Behind line breaks the lists are only near one another: then a
reader that finds the end of the first list has to fail, so that nothing is to be shown of the
second one.

## Main statements

* `Seam.nested_tracks`: the readers for brackets track themselves, however deep, across any seam.
* `Seam.readExpression_tracks`, `Seam.readCondition_tracks`, `Seam.readSteps_tracks`,
  `Seam.readArguments_tracks`: so do the readers that statements use.
-/

namespace Edict

open Grammar

namespace Seam

variable {m : Seam} {i j : Nat} {inner : Nested i} {inner' : Nested j} {ts us : List Token}

/-- What stands in brackets is read in parallel. -/
structure NestedTracks (m : Seam) (inner : Nested i) (inner' : Nested j) : Prop where
  expression : ∀ ts us ht hu, m.Near ts us →
    m.Tracks (inner.expression ts ht) (inner'.expression us hu)
  condition : ∀ ts us ht hu, m.Near ts us →
    m.Tracks (inner.condition ts ht) (inner'.condition us hu)

/-- At the end of the first list there is no expression, as there is none in an empty list. -/
theorem NestedTracks.fails (hi : m.NestedTracks inner inner') (hlax : m.lax)
    (heof : (Token.peek ts).kind = .eof) (ht : ts.length < i) (hj : 0 < j) :
    ∃ f, inner.expression ts ht = .error f :=
  (hi.expression ts [] ht hj (.inr ⟨hlax, heof⟩)).fails

/-! ## Primaries -/

/-- The steps of a reference are read in parallel. -/
theorem steps_tracks (hi : m.NestedTracks inner inner') (h : m.Parallel ts us) (ht hu) :
    m.Tracks (steps inner ts ht) (steps inner' us hu) := by
  fun_induction steps inner ts ht generalizing us with
  | case1 a name b rest ht _ ih =>
      obtain ⟨_, us, rfl, htail⟩ := h.uncons rfl
      obtain ⟨_, us, rfl, hrest⟩ := htail.uncons rfl
      rw [steps.eq_1]
      exact (ih hrest _).bind fun _ _ _ _ _ hrest => .pure hrest
  | case2 a rest ht hname =>
      obtain ⟨_, us, rfl, hrest⟩ := h.uncons rfl
      rw [steps.eq_2]
      · exact .expecting (.inl hrest)
      · rintro name b vs _ rfl _
        obtain ⟨_, _, rfl, -⟩ := hrest.uncons_right rfl
        exact hname _ _ _ ht rfl .rfl
  | case3 a rest ht _ ih =>
      obtain ⟨_, us, rfl, hrest⟩ := h.uncons rfl
      rw [steps.eq_3]
      refine (hi.expression _ _ _ _ (.inl hrest)).bind fun key r r' hr hr' hrest => ?_
      refine (sign_tracks .rbracket (.inl hrest)).bind fun _ s s' hs hs' hrest => ?_
      exact (ih ⟨key, r, hr⟩ ⟨(), s, hs⟩ hrest _).bind fun _ _ _ _ _ hrest => .pure hrest
  | case4 ts ht hfield hdot hindex =>
      rw [steps.eq_4]
      · exact .pure h
      · rintro a name b vs _ rfl _
        obtain ⟨_, _, rfl, -⟩ := h.uncons_right rfl
        exact hdot _ _ ht rfl .rfl
      · rintro a vs _ rfl _
        obtain ⟨_, _, rfl, -⟩ := h.uncons_right rfl
        exact hdot _ _ ht rfl .rfl
      · rintro a vs _ rfl _
        obtain ⟨_, _, rfl, -⟩ := h.uncons_right rfl
        exact hindex _ _ ht rfl .rfl

/-- The arguments of a call are read in parallel. -/
theorem arguments_tracks (hi : m.NestedTracks inner inner') (h : m.Near ts us) (ht hu) :
    m.Tracks (arguments inner ts ht) (arguments inner' us hu) := by
  fun_induction arguments inner ts ht generalizing us with
  | case1 a rest ht =>
      obtain ⟨_, us, rfl, hrest⟩ := h.uncons rfl
      rw [arguments.eq_1]
      exact .pure hrest
  | case2 ts ht hclose _ ih =>
      rcases h with h | ⟨hlax, heof⟩
      · rw [arguments.eq_2]
        · refine (hi.expression _ _ _ _ (.inl h)).bind fun arg r r' hr hr' hrest => ?_
          have hskip := hrest.near_skipNewlines
          split
          · rename_i a rest heq
            rw [heq] at hskip
            obtain ⟨b, rest', heq', hrest⟩ := hskip.uncons rfl
            split
            · rename_i hcomma
              cases heq'.symm.trans hcomma
              exact (ih ⟨arg, r, hr⟩ a rest heq hrest.near_skipNewlines _).bind
                fun _ _ _ _ _ hrest => .pure hrest
            all_goals simp_all
          · rename_i a rest heq
            rw [heq] at hskip
            obtain ⟨b, rest', heq', hrest⟩ := hskip.uncons rfl
            split
            · simp_all
            · rename_i hparen
              cases heq'.symm.trans hparen
              exact .pure hrest
            · simp_all
          · rename_i hcomma hparen
            rcases hskip with hskip | ⟨hlax, -⟩
            · have hcomma' := hskip.head_ne rfl hcomma
              have hparen' := hskip.head_ne rfl hparen
              split
              · simp_all
              · simp_all
              · exact .expecting (.inl hskip)
            · exact .lost hlax
        · rintro a vs _ rfl _
          obtain ⟨_, _, rfl, -⟩ := h.uncons_right rfl
          exact hclose _ _ ht rfl .rfl
      · obtain ⟨f, hf⟩ := hi.fails hlax heof ht (Nat.zero_lt_of_lt hu)
        rw [hf]
        exact .lost hlax

/-- The entries of an object are read in parallel. -/
theorem entries_tracks (hi : m.NestedTracks inner inner') (h : m.Near ts us) (ht hu) :
    m.Tracks (entries inner ts ht) (entries inner' us hu) := by
  fun_induction entries inner ts ht generalizing us with
  | case1 a rest ht =>
      obtain ⟨_, us, rfl, hrest⟩ := h.uncons rfl
      rw [entries.eq_1]
      exact .pure hrest
  | case2 name a rest ht _ ih =>
      obtain ⟨_, us, rfl, hrest⟩ := h.uncons rfl
      rw [entries.eq_2]
      refine (sign_tracks .colon (.inl hrest)).bind fun _ s s' hs hs' hrest => ?_
      refine (hi.expression _ _ _ _ (.inl hrest)).bind fun value r r' hr hr' hrest => ?_
      have hskip := hrest.near_skipNewlines
      split
      · rename_i b after heq
        rw [heq] at hskip
        obtain ⟨_, after', heq', hrest⟩ := hskip.uncons rfl
        split
        · rename_i hcomma
          cases heq'.symm.trans hcomma
          exact (ih ⟨(), s, hs⟩ ⟨value, r, hr⟩ b after heq hrest.near_skipNewlines _).bind
            fun _ _ _ _ _ hrest => .pure hrest
        all_goals simp_all
      · rename_i b after heq
        rw [heq] at hskip
        obtain ⟨_, after', heq', hrest⟩ := hskip.uncons rfl
        split
        · simp_all
        · rename_i hbrace
          cases heq'.symm.trans hbrace
          exact .pure hrest
        · simp_all
      · rename_i hcomma hbrace
        rcases hskip with hskip | ⟨hlax, -⟩
        · have hcomma' := hskip.head_ne rfl hcomma
          have hbrace' := hskip.head_ne rfl hbrace
          split
          · simp_all
          · simp_all
          · exact .expecting (.inl hskip)
        · exact .lost hlax
  | case3 ts ht hclose hname =>
      rcases h with h | ⟨hlax, -⟩
      · rw [entries.eq_3]
        · exact .expecting (.inl h)
        · rintro a vs _ rfl _
          obtain ⟨_, _, rfl, -⟩ := h.uncons_right rfl
          exact hclose _ _ ht rfl .rfl
        · rintro name a vs _ rfl _
          obtain ⟨_, _, rfl, -⟩ := h.uncons_right rfl
          exact hname _ _ _ ht rfl .rfl
      · exact .lost hlax

/-- What begins with a name and is no call is a place. -/
theorem primary_ident {root : String} {a : Span} {rest : List Token}
    (hcall : ∀ b vs, rest = ⟨.symbol .lparen, b⟩ :: vs → False) (ht) :
    primary inner (⟨.ident root, a⟩ :: rest) ht =
      steps inner rest (Nat.le_of_succ_le ht) >>= fun path =>
        .ok (path.map (fun steps => (Reference.ofPath root steps).toExpr) (Nat.le_refl _)) := by
  rw [primary.eq_5]
  · rfl
  · exact fun b vs _ heq _ => hcall b vs heq

/-- Primaries are read in parallel. -/
theorem primary_tracks (hi : m.NestedTracks inner inner') (h : m.Near ts us) (ht hu) :
    m.Tracks (primary inner ts ht) (primary inner' us hu) := by
  by_cases hstart : (Token.peek ts).kind.startsPrimary = false
  · rw [primary_eq_error hstart]
    rcases h with h | ⟨hlax, -⟩
    · have hsame : (Token.peek us).kind.startsPrimary = _ := h.peek_congr rfl
      rw [primary_eq_error (hsame.trans hstart)]
      exact .expecting (.inl h)
    · exact .lost hlax
  · rcases ts with _ | ⟨⟨k, a⟩, rest⟩
    · exact absurd rfl hstart
    · cases k with
      | text v =>
          obtain ⟨_, us, rfl, hrest⟩ := h.uncons rfl
          exact .pure hrest
      | number n =>
          obtain ⟨_, us, rfl, hrest⟩ := h.uncons rfl
          exact .pure hrest
      | bool b =>
          obtain ⟨_, us, rfl, hrest⟩ := h.uncons rfl
          exact .pure hrest
      | ident f =>
          obtain ⟨_, us, rfl, htail⟩ := h.uncons rfl
          by_cases hcall : ∃ b vs, rest = ⟨.symbol .lparen, b⟩ :: vs
          · obtain ⟨b, vs, rfl⟩ := hcall
            obtain ⟨_, us, rfl, hrest⟩ := htail.uncons rfl
            exact (arguments_tracks hi hrest.near_skipNewlines _ _).bind
              fun _ _ _ _ _ hrest => .pure hrest
          · have hplace : ∀ b vs, rest = ⟨.symbol .lparen, b⟩ :: vs → False :=
              fun b vs heq => hcall ⟨b, vs, heq⟩
            rw [primary_ident hplace, primary_ident (htail.head_ne rfl hplace)]
            exact (steps_tracks hi htail _ _).bind fun _ _ _ _ _ hrest => .pure hrest
      | symbol s =>
          obtain rfl : s = .lbrace := by
            cases s with
            | lbrace => rfl
            | _ => exact absurd rfl hstart
          obtain ⟨_, us, rfl, hrest⟩ := h.uncons rfl
          exact (entries_tracks hi hrest.near_skipNewlines _ _).bind
            fun _ _ _ _ _ hrest => .pure hrest
      | _ => exact absurd rfl hstart

/-! ## Arithmetic chains -/

/-- The further parts of a concatenation are read in parallel. -/
theorem concatParts_tracks (hi : m.NestedTracks inner inner') (h : m.Parallel ts us) (ht hu) :
    m.Tracks (concatParts inner ts ht) (concatParts inner' us hu) := by
  fun_induction concatParts inner ts ht generalizing us with
  | case1 a rest ht _ ih =>
      obtain ⟨_, us, rfl, hrest⟩ := h.uncons rfl
      rw [concatParts.eq_1]
      refine (primary_tracks hi (.inl hrest) _ _).bind fun part r r' hr hr' hrest => ?_
      exact (ih ⟨part, r, hr⟩ hrest _).bind fun _ _ _ _ _ hrest => .pure hrest
  | case2 ts ht hplus =>
      rw [concatParts.eq_2]
      · exact .pure h
      · rintro a vs _ rfl _
        obtain ⟨_, _, rfl, -⟩ := h.uncons_right rfl
        exact hplus _ _ ht rfl .rfl

/-- A chain ends where neither an operator nor a negative number follows. -/
theorem arithFrom_stops (left : Expr) (hop : (Token.peek ts).kind.arithOp? = none)
    (hx : (Token.peek ts).kind.negative? = none) (ht) :
    arithFrom inner left ts ht = .ok (.untouched left ts) := by
  rcases ts with _ | ⟨t, rest⟩
  · rw [arithFrom.eq_1]
  · rw [peek_cons] at hop hx
    rw [arithFrom.eq_2]
    simp only [hop, hx]

/-- An arithmetic chain goes on in parallel. -/
theorem arithFrom_tracks (hi : m.NestedTracks inner inner') (left : Expr) (h : m.Parallel ts us)
    (ht hu) : m.Tracks (arithFrom inner left ts ht) (arithFrom inner' left us hu) := by
  fun_induction arithFrom inner left ts ht generalizing us with
  | case1 left ht =>
      rw [arithFrom_stops left (h.peek_congr (p := TokenKind.arithOp?) rfl)
        (h.peek_congr (p := TokenKind.negative?) rfl)]
      exact .pure h
  | case2 left t rest ht op hop _ ih =>
      obtain ⟨k, a⟩ := t
      obtain ⟨_, us, rfl, hrest⟩ := h.uncons (TokenKind.stops_of_role hop rfl rfl)
      rw [arithFrom.eq_2]
      simp only [hop]
      refine (primary_tracks hi (.inl hrest) _ _).bind fun right r r' hr hr' hrest => ?_
      exact (ih ⟨right, r, hr⟩ hrest _).bind fun _ _ _ _ _ hrest => .pure hrest
  | case3 left t rest ht x hx hop _ ih =>
      obtain ⟨k, a⟩ := t
      obtain ⟨_, us, rfl, hrest⟩ := h.uncons (TokenKind.stops_of_role hx rfl rfl)
      rw [arithFrom.eq_2]
      simp only [hop, hx]
      exact (ih hrest _).bind fun _ _ _ _ _ hrest => .pure hrest
  | case4 left t rest ht hx hop _ =>
      rw [arithFrom_stops left ((h.peek_congr (p := TokenKind.arithOp?) rfl).trans hop)
        ((h.peek_congr (p := TokenKind.negative?) rfl).trans hx)]
      exact .pure h

/-- A concatenation begins in both lists or in none. -/
theorem beginsConcat_eq (h : m.Parallel ts us) (first : Expr) :
    beginsConcat first us = beginsConcat first ts := by
  refine Bool.eq_iff_iff.mpr ?_
  rw [beginsConcat_iff, beginsConcat_iff]
  refine and_congr_right fun _ => ⟨?_, ?_⟩
  · rintro ⟨a, rest, rfl⟩
    obtain ⟨b, ts, rfl, -⟩ := h.uncons_right rfl
    exact ⟨b, ts, rfl⟩
  · rintro ⟨a, rest, rfl⟩
    obtain ⟨b, us, rfl, -⟩ := h.uncons rfl
    exact ⟨b, us, rfl⟩

/-- Arithmetic chains are read in parallel. -/
theorem arith_tracks (hi : m.NestedTracks inner inner') (h : m.Near ts us) (ht hu) :
    m.Tracks (arith inner ts ht) (arith inner' us hu) := by
  refine (primary_tracks hi h ht hu).bind fun first r r' hr hr' hrest => ?_
  dsimp only
  rw [beginsConcat_eq hrest]
  split
  · refine (concatParts_tracks hi hrest _ _).bind fun parts s s' hs hs' hrest => ?_
    exact (arithFrom_tracks hi _ hrest _ _).bind fun _ _ _ _ _ hrest => .pure hrest
  · exact (arithFrom_tracks hi _ hrest _ _).bind fun _ _ _ _ _ hrest => .pure hrest

/-! ## Conditions -/

/-- Terms are read in parallel. -/
theorem term_tracks (hi : m.NestedTracks inner inner') (h : m.Near ts us) (ht hu) :
    m.Tracks (term inner ts ht) (term inner' us hu) := by
  fun_cases term inner ts ht with
  | case1 a rest ht =>
      obtain ⟨_, us, rfl, hrest⟩ := h.uncons rfl
      rw [term.eq_1, term.eq_1]
      refine (hi.condition _ _ _ _ (.inl hrest)).bind fun body r r' hr hr' hrest => ?_
      exact (sign_tracks .rparen (.inl hrest)).bind fun _ _ _ _ _ hrest => .pure hrest
  | case2 op a rest ht =>
      have hparallel := h.parallel rfl
      obtain ⟨_, us, rfl, hrest⟩ := hparallel.uncons rfl
      rw [term.eq_2, term.eq_2]
      exact .error rfl hparallel
  | case3 ts ht hparen hop =>
      rw [term.eq_3 _ _ _ hparen hop]
      rcases h with h | ⟨hlax, heof⟩
      · rw [term.eq_3]
        · refine (arith_tracks hi (.inl h) _ _).bind fun left r r' hr hr' hrest => ?_
          have hsame : (Token.peek r').kind.compareOp? = _ := hrest.peek_congr rfl
          rcases r with _ | ⟨⟨k, a⟩, rest⟩
          · -- the first list ends, so no comparison follows in the second one
            rcases r' with _ | ⟨u, rest'⟩
            · exact .pure hrest
            · rw [peek_cons] at hsame
              simp only [hsame]
              exact .pure hrest
          · rcases hcompare : k.compareOp? with _ | op
            · rw [peek_cons, hcompare] at hsame
              simp only [hcompare]
              rcases r' with _ | ⟨u, rest'⟩
              · exact .pure hrest
              · rw [peek_cons] at hsame
                simp only [hsame]
                exact .pure hrest
            · obtain ⟨_, rest', rfl, hright⟩ :=
                hrest.uncons (TokenKind.stops_of_role hcompare rfl rfl)
              simp only [hcompare]
              exact (arith_tracks hi (.inl hright) _ _).bind fun _ _ _ _ _ hrest => .pure hrest
        · rintro a vs _ rfl _
          obtain ⟨_, _, rfl, -⟩ := h.uncons_right rfl
          exact hparen _ _ ht rfl .rfl
        · rintro op a vs _ rfl _
          obtain ⟨_, _, rfl, -⟩ := h.uncons_right rfl
          exact hop _ _ _ ht rfl .rfl
      · rw [arith_eq_error (by rw [heof]; rfl)]
        exact .lost hlax

/-- No operand can begin in one list or in the other one. -/
theorem endsOperand_eq (h : m.Parallel ts us) : endsOperand us = endsOperand ts := by
  unfold endsOperand
  exact h.peek_congr (p := fun k => endsOperand [⟨k, .nowhere⟩]) rfl

/-- A condition goes on in parallel. -/
theorem joinFrom_tracks (hi : m.NestedTracks inner inner') (level : Nat) (left : Expr)
    (h : m.Parallel ts us) (ht hu) :
    m.Tracks (joinFrom inner level left ts ht) (joinFrom inner' level left us hu) := by
  fun_induction joinFrom inner level left ts ht generalizing us with
  | case1 level left op a rest ht hlevel _ =>
      obtain ⟨_, us, rfl, hrest⟩ := h.uncons rfl
      rw [joinFrom.eq_1, if_pos hlevel]
      exact .pure h
  | case2 level left op a rest ht hlevel hends _ =>
      obtain ⟨_, us, rfl, hrest⟩ := h.uncons rfl
      rw [joinFrom.eq_1, if_neg hlevel, if_pos (by rw [endsOperand_eq hrest, hends])]
      exact .error rfl h
  | case3 level left op a rest ht hlevel hends _ ihRight ihWhole =>
      obtain ⟨_, us, rfl, hrest⟩ := h.uncons rfl
      rw [joinFrom.eq_1, if_neg hlevel, if_neg (by rw [endsOperand_eq hrest]; exact hends)]
      refine (term_tracks hi (.inl hrest) _ _).bind fun first r r' hr hr' hrest => ?_
      refine (ihRight ⟨first, r, hr⟩ hrest _).bind fun right s s' hs hs' hrest => ?_
      exact (ihWhole ⟨first, r, hr⟩ ⟨right, s, hs⟩ hrest _).bind fun _ _ _ _ _ hrest => .pure hrest
  | case4 level left ts ht hop _ =>
      rw [joinFrom.eq_2]
      · exact .pure h
      · rintro op a vs _ rfl _
        obtain ⟨_, _, rfl, -⟩ := h.uncons_right rfl
        exact hop _ _ _ ht rfl .rfl

/-- Conditions are read in parallel. -/
theorem condition_tracks (hi : m.NestedTracks inner inner') (h : m.Near ts us) (ht hu) :
    m.Tracks (condition inner ts ht) (condition inner' us hu) := by
  refine (term_tracks hi h ht hu).bind fun first r r' hr hr' hrest => ?_
  exact (joinFrom_tracks hi 1 first hrest _ _).bind fun _ _ _ _ _ hrest => .pure hrest

/-! ## Expressions -/

/-- A comparison or a combinator follows in both lists or in none. -/
theorem atJoin_eq (h : m.Parallel ts us) : atJoin us = atJoin ts :=
  h.peek_congr (p := fun k => k.compareOp?.isSome || k.combinator?.isSome) rfl

/-- Whether a parenthesis stands in front is said by the first token. -/
theorem atParen_eq_peek (ts : List Token) :
    atParen ts = ((Token.peek ts).kind == .symbol .lparen) := by
  rcases ts with _ | ⟨⟨k, a⟩, ts⟩
  · rfl
  · unfold atParen
    split
    · rename_i heq
      cases heq
      rfl
    · rename_i hne
      refine (beq_eq_false_iff_ne.mpr ?_).symm
      rintro rfl
      exact hne _ _ rfl

/-- A parenthesis stands in front of both lists or of none. -/
theorem atParen_eq (h : m.Parallel ts us) : atParen us = atParen ts := by
  rw [atParen_eq_peek, atParen_eq_peek]
  exact h.peek_congr (p := fun k => k == .symbol .lparen) rfl

/-- Expressions are read in parallel. -/
theorem expression_tracks (hi : m.NestedTracks inner inner') (h : m.Near ts us) (ht hu) :
    m.Tracks (expression inner ts ht) (expression inner' us hu) := by
  unfold expression
  rcases h with h | ⟨hlax, heof⟩
  · rw [atParen_eq h]
    split
    · exact condition_tracks hi (.inl h) ht hu
    · refine (arith_tracks hi (.inl h) ht hu).bind fun value r r' hr hr' hrest => ?_
      dsimp only
      rw [atJoin_eq hrest]
      split
      · exact condition_tracks hi (.inl h) ht hu
      · exact .pure hrest
  · have hparen : atParen ts = false := by rw [atParen_eq_peek, heof]; rfl
    rw [hparen, arith_eq_error (by rw [heof]; rfl)]
    exact .lost hlax

/-! ## The knot -/

/-- What stands in brackets is read in parallel. -/
theorem nested_tracks (m : Seam) (i j : Nat) : m.NestedTracks (nested i) (nested j) := by
  induction i using Nat.strongRecOn generalizing j with
  | ind i ih =>
      rw [nested, nested]
      constructor
      · intro ts us ht hu h
        exact expression_tracks (ih _ ht _) h _ _
      · intro ts us ht hu h
        exact condition_tracks (ih _ ht _) h _ _

/-- Expressions are read in parallel. -/
theorem readExpression_tracks (h : m.Near ts us) :
    m.Tracks (readExpression ts) (readExpression us) :=
  expression_tracks (nested_tracks m _ _) h _ _

/-- Conditions are read in parallel. -/
theorem readCondition_tracks (h : m.Near ts us) :
    m.Tracks (readCondition ts) (readCondition us) :=
  condition_tracks (nested_tracks m _ _) h _ _

/-- The steps of a reference are read in parallel. -/
theorem readSteps_tracks (h : m.Parallel ts us) : m.Tracks (readSteps ts) (readSteps us) :=
  steps_tracks (nested_tracks m _ _) h _ _

/-- The arguments of a call are read in parallel. -/
theorem readArguments_tracks (h : m.Near ts us) :
    m.Tracks (readArguments ts) (readArguments us) :=
  arguments_tracks (nested_tracks m _ _) h _ _

end Seam

end Edict

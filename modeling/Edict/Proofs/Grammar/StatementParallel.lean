import Edict.Proofs.Grammar.ExpressionParallel
import Edict.Proofs.Grammar.StatementSound

/-!
# Statements are read in parallel

Each reader of statements tracks itself on parallel lists, if the readers for the statements of
bodies track one another (`InnerTracks`).  Only `branch` looks behind line breaks without using them
up, for an `else`: at the end of the first list it finds none, and it is the seam that has none in
the second list either.

## Main statements

* `Seam.statement_tracks`: one statement, given readers for the statements of its bodies that track
  one another.
* `Seam.readStatement_tracks`: statements with bodies of any depth, across any seam.
-/

namespace Edict

open Grammar

namespace Seam

variable {m : Seam} {i j : Nat} {ts us : List Token}

/-! ## Parts of statements -/

/-- Where no item begins, none is read. -/
theorem arrayItems_eq_error (hts : (Token.peek ts).kind.item? = none) :
    arrayItems ts = .error (.expecting .arrayItem ts) := by
  rcases ts with _ | ⟨t, rest⟩
  · rw [arrayItems.eq_1]
  · rw [peek_cons] at hts
    rw [arrayItems.eq_2]
    simp only [hts]

/-- The items of an array are read in parallel. -/
theorem arrayItems_tracks (h : m.Near ts us) : m.Tracks (arrayItems ts) (arrayItems us) := by
  -- behind an item, both lists have the rest of the array
  have huncons : ∀ {k : TokenKind} {item : Literal} {a : Span} {rest us : List Token},
      k.item? = some item → m.Near (⟨k, a⟩ :: rest) us →
        ∃ b us', us = ⟨k, b⟩ :: us' ∧ m.Near (Token.skipNewlines rest) (Token.skipNewlines us') := by
    intro k item a rest us hitem h
    obtain ⟨b, us', rfl, hrest⟩ := h.uncons (TokenKind.stops_of_role hitem rfl rfl)
    exact ⟨b, us', rfl, hrest.near_skipNewlines⟩
  fun_induction arrayItems ts generalizing us with
  | case1 =>
      rcases h with h | ⟨hlax, -⟩
      · rw [arrayItems_eq_error (h.peek_congr (p := TokenKind.item?) rfl)]
        exact .expecting (.inl h)
      · exact .lost hlax
  | case2 t rest hitem =>
      rcases h with h | ⟨hlax, -⟩
      · rw [arrayItems_eq_error ((h.peek_congr (p := TokenKind.item?) rfl).trans hitem)]
        exact .expecting (.inl h)
      · exact .lost hlax
  | case3 t rest item hitem a after heq _ ih =>
      obtain ⟨b, us, rfl, hskip⟩ := huncons hitem h
      rw [heq] at hskip
      obtain ⟨_, after', heq', hrest⟩ := hskip.uncons rfl
      rw [arrayItems.eq_2]
      simp only [hitem]
      split
      · rename_i hcomma
        cases heq'.symm.trans hcomma
        exact (ih hrest.near_skipNewlines).bind fun _ _ _ _ _ hrest => .pure hrest
      all_goals simp_all
  | case4 t rest item hitem a after heq =>
      obtain ⟨b, us, rfl, hskip⟩ := huncons hitem h
      rw [heq] at hskip
      obtain ⟨_, after', heq', hrest⟩ := hskip.uncons rfl
      rw [arrayItems.eq_2]
      simp only [hitem]
      split
      · simp_all
      · rename_i hclose
        cases heq'.symm.trans hclose
        exact .pure hrest
      · simp_all
  | case5 t rest item hitem hcomma hclose hmissing | case6 t rest item hitem hcomma hclose hmissing =>
      obtain ⟨b, us, rfl, hskip | ⟨hlax, -⟩⟩ := huncons hitem h
      · have hcomma' := hskip.head_ne rfl hcomma
        have hclose' := hskip.head_ne rfl hclose
        have hsame := hskip.peek_congr (p := TokenKind.item?) rfl
        rw [arrayItems.eq_2]
        simp only [hitem, hsame, hmissing, ↓reduceIte]
        exact .error rfl hskip
      · exact .lost hlax

/-- Arrays are read in parallel. -/
theorem arrayLiteral_tracks (h : m.Near ts us) : m.Tracks (arrayLiteral ts) (arrayLiteral us) := by
  refine (sign_tracks .lbracket h).bind fun _ s s' hs hs' hrest => ?_
  have hskip := hrest.near_skipNewlines
  dsimp only
  split
  · rename_i a rest heq
    rw [heq] at hskip
    obtain ⟨_, rest', heq', hrest⟩ := hskip.uncons rfl
    split
    · rename_i hclose
      cases heq'.symm.trans hclose
      exact .pure hrest
    · simp_all
  · rename_i hclose
    rcases hskip with hskip | ⟨hlax, heof⟩
    · have hclose' := hskip.head_ne rfl hclose
      split
      · simp_all
      · exact (arrayItems_tracks (.inl hskip)).bind fun _ _ _ _ _ hrest => .pure hrest
    · rw [arrayItems_eq_error (by rw [heof]; rfl)]
      exact .lost hlax

/-- A list that may not begin with a name does not do so. -/
theorem Near.no_ident (h : m.Near ts us)
    (hts : ∀ f a rest, ts = ⟨.ident f, a⟩ :: rest → False) :
    m.lax ∨ m.Parallel ts us ∧ ∀ f a rest, us = ⟨.ident f, a⟩ :: rest → False := by
  rcases h with h | ⟨hlax, -⟩
  · exact .inr ⟨h, fun f => h.head_ne rfl (hts f)⟩
  · exact .inl hlax

/-- References are read in parallel. -/
theorem reference_tracks (h : m.Near ts us) : m.Tracks (reference ts) (reference us) := by
  fun_cases reference ts with
  | case1 root a rest =>
      obtain ⟨_, us, rfl, hrest⟩ := h.uncons rfl
      exact (readSteps_tracks hrest).bind fun _ _ _ _ _ hrest => .pure hrest
  | case2 ts hname =>
      rw [reference.eq_2 _ hname]
      rcases h.no_ident hname with hlax | ⟨h, hname'⟩
      · exact .lost hlax
      · rw [reference.eq_2 _ hname']
        exact .expecting (.inl h)

/-- Calls are read in parallel. -/
theorem call_tracks (h : m.Near ts us) : m.Tracks (call ts) (call us) := by
  fun_cases call ts with
  | case1 f a rest =>
      obtain ⟨_, us, rfl, hrest⟩ := h.uncons rfl
      refine (sign_tracks .lparen (.inl hrest)).bind fun _ s s' hs hs' hrest => ?_
      exact (readArguments_tracks hrest.near_skipNewlines).bind fun _ _ _ _ _ hrest => .pure hrest
  | case2 ts hname =>
      rw [call.eq_2 _ hname]
      rcases h.no_ident hname with hlax | ⟨h, hname'⟩
      · exact .lost hlax
      · rw [call.eq_2 _ hname']
        exact .expecting (.inl h)

/-- Assignments are read in parallel. -/
theorem assignment_tracks (h : m.Near ts us) : m.Tracks (assignment ts) (assignment us) := by
  refine (reference_tracks h).bind fun target r r' hr hr' hrest => ?_
  have hsame : (Token.peek r').kind.assignOp? = _ := hrest.peek_congr rfl
  rcases r with _ | ⟨⟨k, a⟩, rest⟩
  · rcases r' with _ | ⟨u, rest'⟩
    · exact .expecting (.inl hrest)
    · rw [peek_cons] at hsame
      simp only [hsame]
      exact .expecting (.inl hrest)
  · rcases hop : k.assignOp? with _ | op
    · rw [peek_cons, hop] at hsame
      simp only [hop]
      rcases r' with _ | ⟨u, rest'⟩
      · exact .expecting (.inl hrest)
      · rw [peek_cons] at hsame
        simp only [hsame]
        exact .expecting (.inl hrest)
    · obtain ⟨_, rest', rfl, hvalue⟩ := hrest.uncons (TokenKind.stops_of_role hop rfl rfl)
      simp only [hop]
      exact (readExpression_tracks (.inl hvalue)).bind fun _ _ _ _ _ hrest => .pure hrest

/-! ## Statements and bodies -/

/-- The statements of bodies are read in parallel. -/
def InnerTracks (m : Seam) (inner : Inner i) (inner' : Inner j) : Prop :=
  ∀ ts us ht hu, m.Near ts us → m.Tracks (inner ts ht) (inner' us hu)

variable {inner : Inner i} {inner' : Inner j}

/-- A statement may begin in both lists or in none. -/
theorem startsStatement_eq (h : m.Parallel ts us) : startsStatement us = startsStatement ts := by
  unfold startsStatement
  exact h.peek_congr (p := fun k => startsStatement [⟨k, .nowhere⟩]) rfl

/-- The further statements of a body are read in parallel. -/
theorem bodyFrom_tracks (hi : m.InnerTracks inner inner') (h : m.Parallel ts us) (ht hu) :
    m.Tracks (bodyFrom inner ts ht) (bodyFrom inner' us hu) := by
  fun_induction bodyFrom inner ts ht generalizing us with
  | case1 a rest ht hstart _ ih =>
      obtain ⟨_, us, rfl, hrest⟩ := h.uncons rfl
      rw [bodyFrom.eq_1, if_pos (by rw [startsStatement_eq hrest, hstart])]
      refine (hi _ _ _ _ (.inl hrest)).bind fun s r r' hr hr' hrest => ?_
      exact (ih ⟨s, r, hr⟩ hrest _).bind fun _ _ _ _ _ hrest => .pure hrest
  | case2 a rest ht hstart _ =>
      obtain ⟨_, us, rfl, hrest⟩ := h.uncons rfl
      rw [bodyFrom.eq_1, if_neg (by rw [startsStatement_eq hrest]; exact hstart)]
      exact .pure hrest
  | case3 ts ht hsemicolon _ =>
      rw [bodyFrom.eq_2]
      · exact .pure h
      · rintro a vs _ rfl _
        obtain ⟨_, _, rfl, -⟩ := h.uncons_right rfl
        exact hsemicolon _ _ ht rfl .rfl

/-- Bodies are read in parallel. -/
theorem body_tracks (hi : m.InnerTracks inner inner') (h : m.Parallel ts us) (ht hu) :
    m.Tracks (body inner ts ht) (body inner' us hu) := by
  refine (hi _ _ _ _ h.near_skipNewlines).bind fun first r r' hr hr' hrest => ?_
  exact (bodyFrom_tracks hi hrest _ _).bind fun _ _ _ _ _ hrest => .pure hrest

/-- Branches are read in parallel. -/
theorem branch_tracks (hi : m.InnerTracks inner inner') (h : m.Near ts us) (ht hu) :
    m.Tracks (branch inner ts ht) (branch inner' us hu) := by
  refine (readCondition_tracks h).bind fun test r r' hr hr' htest => ?_
  dsimp only
  split
  · obtain ⟨_, rest', rfl, hthen⟩ := htest.uncons rfl
    refine (body_tracks hi hthen _ _).bind fun thenBody s s' hs hs' hbody => ?_
    dsimp only
    rcases hbody.skipNewlines with hskip | ⟨hlax, heof, hno⟩
    · split
      · rename_i b after heq
        rw [heq] at hskip
        obtain ⟨_, after', heq', helse⟩ := hskip.uncons rfl
        split
        · rename_i hfound
          cases heq'.symm.trans hfound
          exact (body_tracks hi helse _ _).bind fun _ _ _ _ _ hrest => .pure hrest
        · simp_all
      · rename_i hne
        have hne' := hskip.head_ne rfl hne
        split
        · simp_all
        · exact .pure hbody
    · -- the first list is at its end, and there is no `else` in the second one
      split
      · rename_i heq
        rw [heq] at heof
        cases heof
      · split
        · rename_i heq
          rw [heq] at hno
          exact absurd rfl hno
        · exact .pure hbody
  · obtain ⟨_, rest', rfl, -⟩ := htest.uncons rfl
    exact .error rfl htest
  · rename_i hthen hparen
    have hthen' := htest.head_ne rfl hthen
    have hparen' := htest.head_ne rfl hparen
    split
    · exact (hthen' _ _ rfl).elim
    · exact (hparen' _ _ rfl).elim
    · exact .error rfl htest

/-- Loops are read in parallel. -/
theorem loop_tracks (hi : m.InnerTracks inner inner') (h : m.Parallel ts us) (ht hu) :
    m.Tracks (loop inner ts ht) (loop inner' us hu) := by
  fun_cases loop inner ts ht with
  | case1 a b rest ht =>
      obtain ⟨_, us, rfl, htail⟩ := h.uncons rfl
      obtain ⟨_, us', rfl, hrest⟩ := htail.uncons rfl
      rw [loop.eq_1, loop.eq_1]
      refine (arrayLiteral_tracks (.inl htail)).bind fun items r r' hr hr' hrest => ?_
      exact (body_tracks hi hrest _ _).bind fun _ _ _ _ _ hrest => .pure hrest
  | case2 a root b rest ht =>
      obtain ⟨_, us, rfl, htail⟩ := h.uncons rfl
      obtain ⟨_, us', rfl, hrest⟩ := htail.uncons rfl
      rw [loop.eq_2, loop.eq_2]
      refine (reference_tracks (.inl htail)).bind fun place r r' hr hr' hrest => ?_
      exact (body_tracks hi hrest _ _).bind fun _ _ _ _ _ hrest => .pure hrest
  | case3 a rest ht hbracket hname =>
      obtain ⟨_, us, rfl, htail⟩ := h.uncons rfl
      rw [loop.eq_3 _ _ _ _ hbracket hname, loop.eq_3]
      · exact .expecting (.inl htail)
      · rintro b vs _ rfl _
        obtain ⟨_, _, rfl, -⟩ := htail.uncons_right rfl
        exact hbracket _ _ ht rfl .rfl
      · rintro root b vs _ rfl _
        obtain ⟨_, _, rfl, -⟩ := htail.uncons_right rfl
        exact hname _ _ _ ht rfl .rfl
  | case4 a rest ht =>
      obtain ⟨_, us, rfl, hrest⟩ := h.uncons rfl
      rw [loop.eq_4, loop.eq_4]
      refine (readExpression_tracks (.inl hrest)).bind fun bound r r' hr hr' hrest => ?_
      refine (sign_tracks .rparen (.inl hrest)).bind fun _ s s' hs hs' hrest => ?_
      exact (body_tracks hi hrest _ _).bind fun _ _ _ _ _ hrest => .pure hrest
  | case5 ts ht harray hplace heach hparen =>
      rw [loop.eq_5 _ _ _ harray hplace heach hparen, loop.eq_5]
      · exact .expecting (.inl h)
      · rintro a b vs _ rfl _
        obtain ⟨_, _, rfl, -⟩ := h.uncons_right rfl
        exact heach _ _ ht rfl .rfl
      · rintro a root b vs _ rfl _
        obtain ⟨_, _, rfl, -⟩ := h.uncons_right rfl
        exact heach _ _ ht rfl .rfl
      · rintro a vs _ rfl _
        obtain ⟨_, _, rfl, -⟩ := h.uncons_right rfl
        exact heach _ _ ht rfl .rfl
      · rintro a vs _ rfl _
        obtain ⟨_, _, rfl, -⟩ := h.uncons_right rfl
        exact hparen _ _ ht rfl .rfl

/-- Where no statement begins, none is read. -/
theorem statement_eq_error (hts : startsStatement ts = false) (ht) :
    statement inner ts ht = .error (.expecting .statement ts) := by
  unfold statement
  split
  · cases hts
  · cases hts
  · cases hts
  · cases hts
  · rfl

/-- Statements are read in parallel. -/
theorem statement_tracks (hi : m.InnerTracks inner inner') (h : m.Near ts us) (ht hu) :
    m.Tracks (statement inner ts ht) (statement inner' us hu) := by
  by_cases hstart : startsStatement ts = false
  · rw [statement_eq_error hstart]
    rcases h with h | ⟨hlax, -⟩
    · rw [statement_eq_error (by rw [startsStatement_eq h, hstart])]
      exact .expecting (.inl h)
    · exact .lost hlax
  · rcases ts with _ | ⟨⟨k, a⟩, rest⟩
    · exact absurd rfl hstart
    · cases k with
      | keyword w =>
          cases w with
          | ifKw =>
              obtain ⟨_, us, rfl, hrest⟩ := h.uncons rfl
              exact (branch_tracks hi (.inl hrest) _ _).bind fun _ _ _ _ _ hrest => .pure hrest
          | forKw =>
              obtain ⟨_, us, rfl, hrest⟩ := h.uncons rfl
              exact (loop_tracks hi hrest _ _).bind fun _ _ _ _ _ hrest => .pure hrest
          | _ => exact absurd rfl hstart
      | ident f =>
          obtain ⟨_, us, rfl, htail⟩ := h.uncons rfl
          by_cases hcall : ∃ b vs, rest = ⟨.symbol .lparen, b⟩ :: vs
          · obtain ⟨b, vs, rfl⟩ := hcall
            obtain ⟨_, us', rfl, hrest⟩ := htail.uncons rfl
            exact (call_tracks h).bind fun _ _ _ _ _ hrest => .pure hrest
          · have hplace : ∀ b vs, rest = ⟨.symbol .lparen, b⟩ :: vs → False :=
              fun b vs heq => hcall ⟨b, vs, heq⟩
            have hplace' := htail.head_ne rfl hplace
            rw [statement.eq_4, statement.eq_4]
            · exact assignment_tracks h
            · exact fun b vs _ heq _ => hplace' b vs heq
            · exact fun b vs _ heq _ => hplace b vs heq
      | _ => exact absurd rfl hstart

/-! ## The knot -/

/-- Statements are read in parallel. -/
theorem readStatement_tracks {ts us : List Token} (h : m.Near ts us) :
    m.Tracks (readStatement ts) (readStatement us) := by
  rw [readStatement.eq_1 ts, readStatement.eq_1 us]
  refine statement_tracks (fun vs ws hlt _ h => ?_) h _ _
  exact readStatement_tracks h
termination_by ts.length
decreasing_by exact hlt

end Seam

end Edict

import Edict.Proofs.Grammar.ExpressionLookahead
import Edict.Proofs.Grammar.StatementParallel

/-!
# How far readers of statements look

Each reader of statements does the same on two lists that part, unless it is late.  Behind a
statement there may be line breaks only before the lists part: then what follows is still late,
since nothing but an `else` is looked for there.

## Main statements

* `Fork.readStatement_shares`: statements, with the exception of `else`.
* `Fork.readProgram_shares`: a program that fails early enough fails in the same way on the second
  list.
-/

namespace Edict

open Grammar

namespace Fork

variable {m : Fork} {i j : Nat} {ts us : List Token}

/-! ## Parts of statements -/

/-- The items of an array are read alike. -/
theorem arrayItems_shares (h : m.Common ts us) :
    m.Shares .here (arrayItems ts) (arrayItems us) := by
  refine .of_not_ends (arrayItems_within ts) fun hends => ?_
  fun_induction arrayItems ts generalizing us with
  | case1 => exact absurd (Nat.zero_le _) hends
  | case2 t rest hitem =>
      obtain ⟨_, u, rest, us, heq, rfl, hrest⟩ := h.of_not_ends hends
      cases heq
      rw [Seam.arrayItems_eq_error (by exact hitem)]
      exact .expecting h
  | case3 t rest item hitem a after hafter _ ih =>
      obtain ⟨_, u, rest, us, heq, rfl, hrest⟩ := h.of_not_ends hends
      cases heq
      have hnext := Reaches.of_skipNewlines hafter (by simp)
      refine .skipped (hrest.cons u) ((arrayItems_within _).from hnext.breaks).map fun hskip hends => ?_
      obtain ⟨t', u', rest, rest', heq, heq', hrest⟩ := hskip.of_not_ends hends
      cases heq.symm.trans hafter
      rw [arrayItems.eq_2]
      simp only [hitem]
      split
      · rename_i hafter'
        cases heq'.symm.trans hafter'
        exact (Shares.skipped (hrest.cons u') (arrayItems_within _) ih).map
      · rename_i hafter'
        cases heq'.symm.trans hafter'
      · rename_i hcomma _
        exact (hcomma _ _ heq').elim
  | case4 t rest item hitem a after hafter =>
      obtain ⟨_, u, rest, us, heq, rfl, hrest⟩ := h.of_not_ends hends
      cases heq
      refine .skipped (hrest.cons u) (.ok (.of_skipNewlines hafter (by simp))) fun hskip hends => ?_
      obtain ⟨t', u', rest, rest', heq, heq', hrest⟩ := hskip.of_not_ends hends
      cases heq.symm.trans hafter
      rw [arrayItems.eq_2]
      simp only [hitem]
      split
      · rename_i hafter'
        cases heq'.symm.trans hafter'
      · rename_i hafter'
        cases heq'.symm.trans hafter'
        exact .pure (hrest.cons u')
      · rename_i hclose
        exact (hclose _ _ heq').elim
  | case5 t rest item hitem hcomma hclose hmissing | case6 t rest item hitem hcomma hclose hmissing =>
      obtain ⟨_, u, rest, us, heq, rfl, hrest⟩ := h.of_not_ends hends
      cases heq
      refine .skipped (hrest.cons u) (.error (.refl _)) fun hskip hends => ?_
      obtain ⟨t', u', rest, rest', heq, heq', hrest⟩ := hskip.of_not_ends hends
      rw [heq, peek_cons] at hmissing
      rw [arrayItems.eq_2]
      simp only [hitem]
      split
      · rename_i hafter'
        cases heq'.symm.trans hafter'
        exact (hcomma _ _ heq).elim
      · rename_i hafter'
        cases heq'.symm.trans hafter'
        exact (hclose _ _ heq).elim
      · simp only [heq', peek_cons, hmissing, ↓reduceIte]
        rw [heq, heq'] at hskip
        rw [heq]
        exact .error rfl hskip

/-- Arrays are read alike. -/
theorem arrayLiteral_shares (h : m.Common ts us) :
    m.Shares .here (arrayLiteral ts) (arrayLiteral us) := by
  refine (sign_shares .lbracket h).bind_skipped ?_ fun _ s s' hs hs' hskip hends => ?_
  · intro start
    split
    · rename_i a rest hrest
      exact .ok (.of_skipNewlines hrest (by simp))
    · exact (arrayItems_within _).map
  · obtain ⟨t, u, rest, rest', heq, heq', hrest⟩ := hskip.of_not_ends hends
    split
    · rename_i a after hafter
      cases heq.symm.trans hafter
      split
      · rename_i hafter'
        cases heq'.symm.trans hafter'
        exact .pure (hrest.cons u)
      · rename_i hclose
        exact (hclose _ _ heq').elim
    · rename_i hclose
      split
      · rename_i hafter'
        cases heq'.symm.trans hafter'
        exact (hclose _ _ heq).elim
      · exact (arrayItems_shares hskip).map

/-- References are read alike. -/
theorem reference_shares (h : m.Common ts us) : m.Shares .here (reference ts) (reference us) := by
  refine .of_not_ends (reference_within ts) fun hends => ?_
  obtain ⟨⟨k, a⟩, u, ts, us, rfl, rfl, hrest⟩ := h.of_not_ends hends
  cases k with
  | ident root =>
      refine (readSteps_shares (hrest.cons u)).bind ?_ fun _ _ _ _ _ hrest _ => .pure hrest
      exact fun path => .ok (.refl _)
  | _ => exact .expecting h

/-- Calls are read alike. -/
theorem call_shares (h : m.Common ts us) : m.Shares .here (call ts) (call us) := by
  have hargs : ∀ vs, Within vs (readArguments vs) :=
    fun vs => arguments_within (nested_within _) vs _
  refine .of_not_ends (call_within ts) fun hends => ?_
  obtain ⟨⟨k, a⟩, u, ts, us, rfl, rfl, hrest⟩ := h.of_not_ends hends
  cases k with
  | ident f =>
      refine (sign_shares .lparen (hrest.cons u)).bind_skipped ?_ fun _ s s' hs hs' hskip _ => ?_
      · exact fun start => (hargs _).map
      · exact (readArguments_shares hskip).map
  | _ => exact .expecting h

/-- Assignments are read alike. -/
theorem assignment_shares (h : m.Common ts us) :
    m.Shares .here (assignment ts) (assignment us) := by
  refine (reference_shares h).bind ?_ fun target r r' hr hr' hrest hends => ?_
  · intro target
    split
    · rename_i hr
      exact .error (by rw [hr]; exact .refl [])
    · rename_i t rest hr
      split
      · exact .error (by rw [hr]; exact .refl _)
      · rename_i op hop
        have hrest : Reaches target.rest rest := by
          rw [hr]
          exact .tail t rest (TokenKind.ne_eof_of_role hop rfl)
        have hvalue : Within rest (readExpression rest) := expression_within (nested_within _) rest _
        exact (hvalue.from hrest).map
  · obtain ⟨t, u, r, r', rfl, rfl, hvalue⟩ := hrest.of_not_ends hends
    dsimp only
    rcases t.kind.assignOp? with _ | op
    · exact .expecting hrest
    · exact (readExpression_shares (hvalue.cons u)).map

/-! ## Statements and bodies -/

/-- The statements of bodies are read alike. -/
structure InnerShares (m : Fork) (inner : Inner i) (inner' : Inner j) : Prop where
  within : Inner.Within inner
  statement : ∀ ts us ht hu, m.Common ts us → m.Shares .behind (inner ts ht) (inner' us hu)

variable {inner : Inner i} {inner' : Inner j}

/-- Where there are only line breaks before the list ends, a body has no further statement, or it is
late. -/
theorem bodyFrom_late (hi : Inner.Within inner) (hends : m.Ends (Token.skipNewlines ts)) (ht) :
    m.Late .behind (bodyFrom inner ts ht) := by
  by_cases hsemicolon : ∃ a rest, ts = ⟨.symbol .semicolon, a⟩ :: rest
  · obtain ⟨a, rest, rfl⟩ := hsemicolon
    rw [skipNewlines_cons rfl] at hends
    exact hends.late (bodyFrom_within hi _ ht)
  · rw [bodyFrom.eq_2]
    · exact .ok hends
    · exact fun a rest _ heq _ => hsemicolon ⟨a, rest, heq⟩

/-- The further statements of a body are read alike. -/
theorem bodyFrom_shares (hi : m.InnerShares inner inner') (h : m.Common ts us) (ht hu) :
    m.Shares .behind (bodyFrom inner ts ht) (bodyFrom inner' us hu) := by
  refine .of_not_ends (bodyFrom_within hi.within ts ht) fun hends => ?_
  fun_induction bodyFrom inner ts ht generalizing us with
  | case1 a rest ht hstart _ ih =>
      obtain ⟨_, u, rest, us, heq, rfl, hrest⟩ := h.of_not_ends hends
      cases heq
      rw [bodyFrom.eq_1, if_pos (by exact hstart)]
      refine (hi.statement _ _ _ _ (hrest.cons u)).bind_behind ?_ fun s r r' hr hr' hrest _ => ?_
      · exact fun s hends => (bodyFrom_late hi.within hends _).map
      · exact (Shares.of_not_ends (bodyFrom_within hi.within _ _) (ih ⟨s, r, hr⟩ hrest _)).map
  | case2 a rest ht hstart _ =>
      obtain ⟨_, u, rest, us, heq, rfl, hrest⟩ := h.of_not_ends hends
      cases heq
      rw [bodyFrom.eq_1, if_neg (by exact hstart)]
      exact .pure (hrest.cons u)
  | case3 ts ht hsemicolon _ =>
      obtain ⟨t, u, ts, us, rfl, rfl, hrest⟩ := h.of_not_ends hends
      rw [bodyFrom.eq_2]
      · exact .pure h
      · rintro a vs _ heq _
        cases heq
        exact hsemicolon _ _ ht rfl .rfl

/-- Bodies are read alike. -/
theorem body_shares (hi : m.InnerShares inner inner') (h : m.Common ts us) (ht hu) :
    m.Shares .behind (body inner ts ht) (body inner' us hu) := by
  have hfirst := Shares.skipped h (hi.within _ (Nat.lt_of_le_of_lt (Token.length_skipNewlines_le ts) ht))
    fun hskip _ =>
      hi.statement _ _ _ (Nat.lt_of_le_of_lt (Token.length_skipNewlines_le us) hu) hskip
  refine hfirst.bind_behind ?_ fun first r r' hr hr' hrest _ => ?_
  · exact fun first hends => (bodyFrom_late hi.within hends _).map
  · exact (bodyFrom_shares hi hrest _ _).map

/-- Branches are read alike. -/
theorem branch_shares (hi : m.InnerShares inner inner') (h : m.Common ts us) (ht hu) :
    m.Shares .behind (branch inner ts ht) (branch inner' us hu) := by
  refine (readCondition_shares h).bind ?_ fun test r r' hr hr' htest hends => ?_
  · intro test
    split
    · rename_i a rest hr
      have hrest : Reaches test.rest rest := by
        rw [hr]
        exact .tail _ rest (by simp)
      refine ((body_within hi.within rest _).from hrest).bind fun thenBody hbody => ?_
      split
      · rename_i b after hafter
        have hbreaks := hbody.breaks
        rw [hafter] at hbreaks
        exact ((body_within hi.within after _).from (hbreaks.behind (by simp))).map
      · exact .ok hbody
    · rename_i a rest hr
      exact .error (by rw [hr]; exact .refl _)
    · exact .error (.refl _)
  · obtain ⟨⟨k, a⟩, u, r, r', rfl, rfl, hrest⟩ := htest.of_not_ends hends
    cases k with
    | keyword w =>
        cases w with
        | thenKw =>
            refine (body_shares hi (hrest.cons u) _ _).bind_behind ?_
              fun thenBody s s' hs hs' hbody hends => ?_
            · intro thenBody hends
              split
              · rename_i b after hafter
                rw [hafter] at hends
                exact ((hends.of_le (Nat.le_succ _)).late (body_within hi.within after _)).map
              · exact .ok hends
            · have hskip := (hbody.dropWhile _).resolve_left hends
              obtain ⟨t, u, rest, rest', heq, heq', helse⟩ := hskip.of_not_ends hends
              split
              · rename_i b after hafter
                cases heq.symm.trans hafter
                split
                · rename_i hafter'
                  cases heq'.symm.trans hafter'
                  exact (body_shares hi (helse.cons u) _ _).map
                · rename_i hno
                  exact (hno _ _ heq').elim
              · rename_i hno
                split
                · rename_i hafter'
                  cases heq'.symm.trans hafter'
                  exact (hno _ _ heq).elim
                · exact .pure hbody
        | _ => exact .expecting htest
    | symbol s =>
        cases s with
        | rparen => exact .error rfl htest
        | _ => exact .expecting htest
    | _ => exact .expecting htest

/-- Loops are read alike. -/
theorem loop_shares (hi : m.InnerShares inner inner') (h : m.Common ts us) (ht hu) :
    m.Shares .behind (loop inner ts ht) (loop inner' us hu) := by
  refine .of_not_ends (loop_within hi.within ts ht) fun hends => ?_
  obtain ⟨⟨k, a⟩, ⟨l, b⟩, ts, us, rfl, rfl, hrest⟩ := h.of_not_ends hends
  cases k with
  | keyword w =>
      cases w with
      | eachKw =>
          cases l with
          | symbol s =>
              cases s with
              | lbracket =>
                  refine (arrayLiteral_shares (hrest.cons _)).bind ?_
                    fun items r r' hr hr' hrest _ => ?_
                  · exact fun items => (body_within hi.within _ _).map
                  · exact (body_shares hi hrest _ _).map
              | _ => exact .expecting (hrest.cons _)
          | ident root =>
              refine (reference_shares (hrest.cons _)).bind ?_ fun place r r' hr hr' hrest _ => ?_
              · exact fun place => (body_within hi.within _ _).map
              · exact (body_shares hi hrest _ _).map
          | _ => exact .expecting (hrest.cons _)
      | _ => exact .expecting h
  | symbol s =>
      cases s with
      | lparen =>
          refine (readExpression_shares (hrest.cons _)).bind ?_ fun bound r r' hr hr' hrest _ => ?_
          · exact fun bound => (sign_within .rparen bound.rest).bind fun close hclose =>
              ((body_within hi.within _ _).from hclose).map
          refine (sign_shares .rparen hrest).bind ?_ fun _ s s' hs hs' hrest _ => ?_
          · exact fun close => (body_within hi.within _ _).map
          exact (body_shares hi hrest _ _).map
      | _ => exact .expecting h
  | _ => exact .expecting h

/-- Statements are read alike, given readers for those of their bodies. -/
theorem statement_shares (hi : m.InnerShares inner inner') (h : m.Common ts us) (ht hu) :
    m.Shares .behind (statement inner ts ht) (statement inner' us hu) := by
  refine .of_not_ends (statement_within hi.within ts ht) fun hends => ?_
  obtain ⟨⟨k, a⟩, ⟨l, b⟩, ts, us, rfl, rfl, hrest⟩ := h.of_not_ends hends
  cases k with
  | keyword w =>
      cases w with
      | ifKw => exact (branch_shares hi (hrest.cons _) _ _).map
      | forKw => exact (loop_shares hi (hrest.cons _) _ _).map
      | _ => exact .expecting h
  | ident f =>
      by_cases hcall : l = .symbol .lparen
      · subst hcall
        exact (call_shares h).behind.map
      · have hplace : ∀ vs c ws, (⟨l, b⟩ :: vs : List Token) = ⟨.symbol .lparen, c⟩ :: ws → False := by
          rintro vs c ws heq
          cases heq
          exact hcall rfl
        rw [statement.eq_4, statement.eq_4]
        · exact (assignment_shares h).behind
        · exact fun c ws _ heq _ => hplace us c ws heq
        · exact fun c ws _ heq _ => hplace ts c ws heq
  | _ => exact .expecting h

/-! ## The knot -/

/-- Statements are read alike. -/
theorem readStatement_shares {ts us : List Token} (h : m.Common ts us) :
    m.Shares .behind (readStatement ts) (readStatement us) := by
  rw [readStatement.eq_1 ts, readStatement.eq_1 us]
  refine statement_shares ⟨fun vs _ => readStatement_within vs, fun vs ws hlt _ h => ?_⟩ h _ _
  exact readStatement_shares h
termination_by ts.length
decreasing_by exact hlt

/-! ## Programs -/

/-- A mistake is behind the separators in front. -/
theorem readProgram_reaches_behind {seps : List Token} {f : Failure} (hseps : Derives.Separators seps)
    (hts : ts = seps ++ us) (hf : readProgram ts = .error f) : Reaches us f.rest := by
  have hskip : Token.skipSeparators us = Token.skipSeparators ts := by
    rw [hts, skipSeparators_append hseps]
  exact readProgram_reaches us ((readProgram_congr hskip).trans hf)

/-- What is wrong behind a statement: it may not end there, or there is a mistake further on. -/
theorem behind_eq_error {s : Stmt} {f : Failure} :
    (statementEnd ts >>= fun _ => readProgram ts >>= fun more => Except.ok (s :: more)) = .error f ↔
      statementEnd ts = .error f ∨ statementEnd ts = .ok () ∧ readProgram ts = .error f := by
  constructor
  · intro hf
    rcases error_of_bind hf with hend | ⟨_, hend, hf⟩
    · exact .inl hend
    · rcases error_of_bind hf with hmore | ⟨_, -, hf⟩
      · exact .inr ⟨hend, hmore⟩
      · cases hf
  · rintro (hend | ⟨hend, hmore⟩)
    · rw [hend]
      rfl
    · rw [hend, hmore]
      rfl

/-- A statement ends before both lists or before none, if two shared tokens are left. -/
theorem statementEnd_shares (h : m.Common ts us) (hends : ¬ m.Ends ts) :
    statementEnd ts = .ok () ∧ statementEnd us = .ok () ∨
      ∃ problem, statementEnd ts = .error ⟨problem, ts⟩ ∧ statementEnd us = .error ⟨problem, us⟩ := by
  obtain ⟨t, u, ts, us, rfl, rfl, -⟩ := h.of_not_ends hends
  unfold statementEnd
  rw [peek_cons, peek_cons]
  split
  · exact .inr ⟨_, rfl, rfl⟩
  · split
    · exact .inl ⟨rfl, rfl⟩
    · exact .inr ⟨_, rfl, rfl⟩

/-- A statement that may not end in front of some tokens is not followed by a line break. -/
theorem skipNewlines_of_statementEnd {f : Failure} (h : statementEnd ts = .error f) :
    Token.skipNewlines ts = ts := by
  rcases ts with _ | ⟨t, ts⟩
  · rfl
  · refine skipNewlines_cons (Bool.eq_false_iff.mpr fun hnewline => ?_) ts
    have hends : t.kind.endsStatement = true := by
      unfold TokenKind.isNewline at hnewline
      split at hnewline
      · rename_i hk
        rw [hk]
        rfl
      · cases hnewline
    unfold statementEnd at h
    rw [peek_cons] at h
    split at h
    · rename_i hk
      rw [hk] at hends
      cases hends
    · rw [if_pos hends] at h
      cases h

/-- A mistake in front of which two shared tokens are left is made in the other list, too. -/
theorem readProgram_shares {ts us : List Token} {f : Failure} (h : m.Common ts us)
    (hf : readProgram ts = .error f) :
    m.Ends f.rest ∨
      ∃ g, readProgram us = .error g ∧ f.problem = g.problem ∧ m.Common f.rest g.rest := by
  by_cases hends : m.Ends (Token.skipSeparators ts)
  · obtain ⟨seps, hseps, hts⟩ := Derives.exists_separators ts
    exact .inl (hends.reaches (readProgram_reaches_behind hseps hts hf))
  · obtain ⟨t, u, rest, rest', hts, hus, hrest⟩ :=
      ((h.dropWhile _).resolve_left hends).of_not_ends hends
    have hts : Token.skipSeparators ts = t :: u :: rest := hts
    have ht : t.kind ≠ .eof := by
      intro heof
      rw [readProgram_of_eof (by rw [hts, peek_cons, heof])] at hf
      cases hf
    rw [readProgram_of_statement hts ht] at hf
    rw [readProgram_of_statement hus ht]
    have hshares := readStatement_shares ((hrest.cons u).cons t)
    generalize readStatement (t :: u :: rest') = o at hshares ⊢
    rcases error_of_bind hf with hs | ⟨s, hs, hf⟩
    · rw [hs] at hshares
      cases hshares with
      | @error _ g hproblem hrest => exact .inr ⟨g, rfl, hproblem, hrest⟩
      | late h =>
          cases h with
          | error hends => exact .inl hends
    · rw [hs] at hshares
      -- where there are only line breaks before the list ends, every mistake is behind them
      have hlate : m.Ends (Token.skipNewlines s.rest) → m.Ends f.rest := by
        intro hends
        rcases behind_eq_error.mp hf with hend | ⟨-, hmore⟩
        · rw [skipNewlines_of_statementEnd hend] at hends
          rwa [rest_of_statementEnd hend]
        · obtain ⟨nl, hnl, hts⟩ := Derives.exists_newlines s.rest
          exact hends.reaches (readProgram_reaches_behind hnl.separators hts hmore)
      cases hshares with
      | late h =>
          cases h with
          | ok hends => exact .inl (hlate hends)
      | @ok _ s' hvalue hrest =>
          by_cases hends : m.Ends s.rest
          · exact .inl (hlate (hends.of_le (Token.length_skipNewlines_le _)))
          · have hshorter : s.rest.length < ts.length :=
              Nat.lt_of_lt_of_le s.shorter (hts ▸ Token.length_skipSeparators_le ts)
            rcases behind_eq_error.mp hf with hend | ⟨hend, hmore⟩
            · rcases statementEnd_shares hrest hends with ⟨hok, -⟩ | ⟨problem, herror, herror'⟩
              · rw [hok] at hend
                cases hend
              · rw [herror] at hend
                cases hend
                exact .inr ⟨_, behind_eq_error.mpr (.inl herror'), rfl, hrest⟩
            · rcases statementEnd_shares hrest hends with ⟨-, hok'⟩ | ⟨problem, herror, -⟩
              · rcases readProgram_shares hrest hmore with hends | ⟨g, hg, hproblem, hrest⟩
                · exact .inl hends
                · exact .inr ⟨g, behind_eq_error.mpr (.inr ⟨hok', hg⟩), hproblem, hrest⟩
              · rw [herror] at hend
                cases hend
termination_by ts.length
decreasing_by exact hshorter

end Fork

end Edict

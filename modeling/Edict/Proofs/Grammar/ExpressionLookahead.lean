import Edict.Proofs.Grammar.ExpressionParallel
import Edict.Proofs.Grammar.Lookahead

/-!
# How far readers of expressions look

Each reader of expressions does the same on two lists that part, unless it is late.  As where lists
are parallel, the readers for what stands in brackets are assumed to do so (`NestedShares`) until
the knot is tied (`nested_shares`).

## Main statements

* `Fork.nested_shares`: the readers for brackets do the same on both lists, however deep.
* `Fork.readExpression_shares`, `Fork.readCondition_shares`, `Fork.readSteps_shares`,
  `Fork.readArguments_shares`: so do the readers that statements use.
-/

namespace Edict

open Grammar

namespace Fork

variable {m : Fork} {i j : Nat} {inner : Nested i} {inner' : Nested j} {ts us : List Token}

/-- What stands in brackets is read from both lists alike. -/
structure NestedShares (m : Fork) (inner : Nested i) (inner' : Nested j) : Prop where
  within : inner.Within
  expression : ∀ ts us ht hu, m.Common ts us →
    m.Shares .here (inner.expression ts ht) (inner'.expression us hu)
  condition : ∀ ts us ht hu, m.Common ts us →
    m.Shares .here (inner.condition ts ht) (inner'.condition us hu)

/-! ## Primaries -/

/-- The steps of a reference are read alike. -/
theorem steps_shares (hi : m.NestedShares inner inner') (h : m.Common ts us) (ht hu) :
    m.Shares .here (steps inner ts ht) (steps inner' us hu) := by
  refine .of_not_ends (steps_within hi.within ts ht) fun hends => ?_
  fun_induction steps inner ts ht generalizing us with
  | case1 a name b rest ht _ ih =>
      obtain ⟨_, _, _, us, heq, rfl, hrest⟩ := h.of_not_ends hends
      cases heq
      rw [steps.eq_1]
      exact (Shares.of_not_ends (steps_within hi.within rest _) (ih hrest _)).map
  | case2 a rest ht hname =>
      obtain ⟨_, u, rest, us, heq, rfl, hrest⟩ := h.of_not_ends hends
      cases heq
      rw [steps.eq_2]
      · exact .expecting (hrest.cons u)
      · rintro name b vs _ heq _
        cases heq
        exact hname _ _ _ ht rfl .rfl
  | case3 a rest ht _ ih =>
      obtain ⟨_, u, rest, us, heq, rfl, hrest⟩ := h.of_not_ends hends
      cases heq
      rw [steps.eq_3]
      refine (hi.expression _ _ _ _ (hrest.cons u)).bind ?_ fun key r r' hr hr' hrest _ => ?_
      · exact fun key => (sign_within .rbracket key.rest).bind fun close hclose =>
          ((steps_within hi.within close.rest _).from hclose).map
      refine (sign_shares .rbracket hrest).bind ?_ fun _ s s' hs hs' hrest _ => ?_
      · exact fun close => (steps_within hi.within close.rest _).map
      exact (Shares.of_not_ends (steps_within hi.within s _)
        (ih ⟨key, r, hr⟩ ⟨(), s, hs⟩ hrest _)).map
  | case4 ts ht hfield hdot hindex =>
      obtain ⟨t, u, ts, us, rfl, rfl, hrest⟩ := h.of_not_ends hends
      rw [steps.eq_4]
      · exact .pure h
      · rintro a name b vs _ heq _
        cases heq
        exact hdot _ _ ht rfl .rfl
      · rintro a vs _ heq _
        cases heq
        exact hdot _ _ ht rfl .rfl
      · rintro a vs _ heq _
        cases heq
        exact hindex _ _ ht rfl .rfl

/-- The arguments of a call are read alike. -/
theorem arguments_shares (hi : m.NestedShares inner inner') (h : m.Common ts us) (ht hu) :
    m.Shares .here (arguments inner ts ht) (arguments inner' us hu) := by
  refine .of_not_ends (arguments_within hi.within ts ht) fun hends => ?_
  fun_induction arguments inner ts ht generalizing us with
  | case1 a rest ht =>
      obtain ⟨_, u, rest, us, heq, rfl, hrest⟩ := h.of_not_ends hends
      cases heq
      rw [arguments.eq_1]
      exact .pure (hrest.cons u)
  | case2 ts ht hclose _ ih =>
      rw [arguments.eq_2]
      · refine (hi.expression _ _ _ _ h).bind_skipped ?_ fun arg r r' hr hr' hskip hends => ?_
        · intro arg
          split
          · rename_i a after hafter
            have hnext := Reaches.of_skipNewlines hafter (by simp)
            exact ((arguments_within hi.within _ _).from hnext.breaks).map
          · rename_i a after hafter
            exact .ok (.of_skipNewlines hafter (by simp))
          · exact .error (.refl _)
        · obtain ⟨t, u, rest, rest', heq, heq', hrest⟩ := hskip.of_not_ends hends
          split
          · rename_i a after hafter
            cases heq.symm.trans hafter
            split
            · rename_i hafter'
              cases heq'.symm.trans hafter'
              exact (Shares.skipped (hrest.cons u) (arguments_within hi.within _ _)
                fun hskip => ih ⟨arg, r, hr⟩ a _ hafter hskip _).map
            · rename_i hafter'
              cases heq'.symm.trans hafter'
            · rename_i hcomma _
              exact (hcomma _ _ heq').elim
          · rename_i a after hafter
            cases heq.symm.trans hafter
            split
            · rename_i hafter'
              cases heq'.symm.trans hafter'
            · rename_i hafter'
              cases heq'.symm.trans hafter'
              exact .pure (hrest.cons u)
            · rename_i hparen
              exact (hparen _ _ heq').elim
          · rename_i hcomma hparen
            split
            · rename_i hafter'
              cases heq'.symm.trans hafter'
              exact (hcomma _ _ heq).elim
            · rename_i hafter'
              cases heq'.symm.trans hafter'
              exact (hparen _ _ heq).elim
            · exact .expecting hskip
      · obtain ⟨t, u, ts, us, rfl, rfl, hrest⟩ := h.of_not_ends hends
        rintro a vs _ heq _
        cases heq
        exact hclose _ _ ht rfl .rfl

/-- The entries of an object are read alike. -/
theorem entries_shares (hi : m.NestedShares inner inner') (h : m.Common ts us) (ht hu) :
    m.Shares .here (entries inner ts ht) (entries inner' us hu) := by
  refine .of_not_ends (entries_within hi.within ts ht) fun hends => ?_
  fun_induction entries inner ts ht generalizing us with
  | case1 a rest ht =>
      obtain ⟨_, u, rest, us, heq, rfl, hrest⟩ := h.of_not_ends hends
      cases heq
      rw [entries.eq_1]
      exact .pure (hrest.cons u)
  | case2 name a rest ht _ ih =>
      obtain ⟨_, u, rest, us, heq, rfl, hrest⟩ := h.of_not_ends hends
      cases heq
      rw [entries.eq_2]
      by_cases hcolon : ∃ b, u = ⟨.symbol .colon, b⟩
      · obtain ⟨b, rfl⟩ := hcolon
        rw [sign_eq_ok, sign_eq_ok]
        show m.Shares .here (inner.expression _ _ >>= _) (inner'.expression _ _ >>= _)
        refine (hi.expression _ _ _ _ hrest).bind_skipped ?_ fun value r r' hr hr' hskip hends => ?_
        · intro value
          split
          · rename_i c after hafter
            have hnext := Reaches.of_skipNewlines hafter (by simp)
            exact ((entries_within hi.within _ _).from hnext.breaks).map
          · rename_i c after hafter
            exact .ok (.of_skipNewlines hafter (by simp))
          · exact .error (.refl _)
        · obtain ⟨t, u, rest, rest', heq, heq', hrest⟩ := hskip.of_not_ends hends
          split
          · rename_i c after hafter
            cases heq.symm.trans hafter
            split
            · rename_i hafter'
              cases heq'.symm.trans hafter'
              exact (Shares.skipped (hrest.cons u) (entries_within hi.within _ _)
                fun hskip => ih ⟨(), _, Nat.lt_succ_self _⟩ ⟨value, r, hr⟩ c _ hafter hskip _).map
            · rename_i hafter'
              cases heq'.symm.trans hafter'
            · rename_i hcomma _
              exact (hcomma _ _ heq').elim
          · rename_i c after hafter
            cases heq.symm.trans hafter
            split
            · rename_i hafter'
              cases heq'.symm.trans hafter'
            · rename_i hafter'
              cases heq'.symm.trans hafter'
              exact .pure (hrest.cons u)
            · rename_i hbrace
              exact (hbrace _ _ heq').elim
          · rename_i hcomma hbrace
            split
            · rename_i hafter'
              cases heq'.symm.trans hafter'
              exact (hcomma _ _ heq).elim
            · rename_i hafter'
              cases heq'.symm.trans hafter'
              exact (hbrace _ _ heq).elim
            · exact .expecting hskip
      · rw [sign_eq_error fun b vs heq => hcolon ⟨b, (List.cons_eq_cons.mp heq).1⟩,
          sign_eq_error fun b vs heq => hcolon ⟨b, (List.cons_eq_cons.mp heq).1⟩]
        exact .expecting (hrest.cons u)
  | case3 ts ht hclose hname =>
      obtain ⟨t, u, ts, us, rfl, rfl, hrest⟩ := h.of_not_ends hends
      rw [entries.eq_3]
      · exact .expecting h
      · rintro a vs _ heq _
        cases heq
        exact hclose _ _ ht rfl .rfl
      · rintro name a vs _ heq _
        cases heq
        exact hname _ _ _ ht rfl .rfl

/-- Primaries are read alike. -/
theorem primary_shares (hi : m.NestedShares inner inner') (h : m.Common ts us) (ht hu) :
    m.Shares .here (primary inner ts ht) (primary inner' us hu) := by
  refine .of_not_ends (primary_within hi.within ts ht) fun hends => ?_
  obtain ⟨⟨k, a⟩, u, ts, us, rfl, rfl, hrest⟩ := h.of_not_ends hends
  cases k with
  | text v => exact .pure (hrest.cons u)
  | number n => exact .pure (hrest.cons u)
  | bool b => exact .pure (hrest.cons u)
  | ident f =>
      by_cases hcall : ∃ b, u = ⟨.symbol .lparen, b⟩
      · obtain ⟨b, rfl⟩ := hcall
        exact (Shares.skipped hrest (arguments_within hi.within _ _)
          fun hskip _ => arguments_shares hi hskip _ _).map
      · have hplace : ∀ rest b vs, u :: rest = ⟨.symbol .lparen, b⟩ :: vs → False :=
          fun rest b vs heq => hcall ⟨b, (List.cons_eq_cons.mp heq).1⟩
        rw [Seam.primary_ident (hplace ts), Seam.primary_ident (hplace us)]
        exact (steps_shares hi (hrest.cons u) _ _).map
  | symbol s =>
      cases s with
      | lbrace =>
          exact (Shares.skipped (hrest.cons u) (entries_within hi.within _ _)
            fun hskip _ => entries_shares hi hskip _ _).map
      | _ => exact .expecting h
  | _ => exact .expecting h

/-! ## Arithmetic chains -/

/-- The further parts of a concatenation are read alike. -/
theorem concatParts_shares (hi : m.NestedShares inner inner') (h : m.Common ts us) (ht hu) :
    m.Shares .here (concatParts inner ts ht) (concatParts inner' us hu) := by
  refine .of_not_ends (concatParts_within hi.within ts ht) fun hends => ?_
  fun_induction concatParts inner ts ht generalizing us with
  | case1 a rest ht _ ih =>
      obtain ⟨_, u, rest, us, heq, rfl, hrest⟩ := h.of_not_ends hends
      cases heq
      rw [concatParts.eq_1]
      refine (primary_shares hi (hrest.cons u) _ _).bind ?_ fun part r r' hr hr' hrest hends => ?_
      · exact fun part => (concatParts_within hi.within part.rest _).map
      · exact (ih ⟨part, r, hr⟩ hrest _ hends).map
  | case2 ts ht hplus =>
      obtain ⟨t, u, ts, us, rfl, rfl, hrest⟩ := h.of_not_ends hends
      rw [concatParts.eq_2]
      · exact .pure h
      · rintro a vs _ heq _
        cases heq
        exact hplus _ _ ht rfl .rfl

/-- An arithmetic chain goes on alike. -/
theorem arithFrom_shares (hi : m.NestedShares inner inner') (left : Expr) (h : m.Common ts us)
    (ht hu) : m.Shares .here (arithFrom inner left ts ht) (arithFrom inner' left us hu) := by
  refine .of_not_ends (arithFrom_within hi.within left ts ht) fun hends => ?_
  fun_induction arithFrom inner left ts ht generalizing us with
  | case1 left ht => exact absurd (Nat.zero_le _) hends
  | case2 left t rest ht op hop _ ih =>
      obtain ⟨_, u, rest, us, heq, rfl, hrest⟩ := h.of_not_ends hends
      cases heq
      rw [arithFrom.eq_2]
      simp only [hop]
      refine (primary_shares hi (hrest.cons u) _ _).bind ?_ fun right r r' hr hr' hrest hends => ?_
      · exact fun right => (arithFrom_within hi.within _ right.rest _).map
      · exact (ih ⟨right, r, hr⟩ hrest _ hends).map
  | case3 left t rest ht x hx hop _ ih =>
      obtain ⟨_, u, rest, us, heq, rfl, hrest⟩ := h.of_not_ends hends
      cases heq
      rw [arithFrom.eq_2 inner']
      simp only [hop, hx]
      exact (Shares.of_not_ends (arithFrom_within hi.within _ _ _) (ih (hrest.cons u) _)).map
  | case4 left t rest ht hx hop _ =>
      obtain ⟨_, u, rest, us, heq, rfl, hrest⟩ := h.of_not_ends hends
      cases heq
      rw [Seam.arithFrom_stops left (by exact hop) (by exact hx)]
      exact .pure h

/-- Whether a concatenation begins is said by the first token. -/
theorem beginsConcat_cons (first : Expr) (t : Token) (ts us : List Token) :
    beginsConcat first (t :: us) = beginsConcat first (t :: ts) := by
  obtain ⟨k, a⟩ := t
  cases k with
  | symbol s => cases s <;> rfl
  | _ => rfl

/-- Arithmetic chains are read alike. -/
theorem arith_shares (hi : m.NestedShares inner inner') (h : m.Common ts us) (ht hu) :
    m.Shares .here (arith inner ts ht) (arith inner' us hu) := by
  refine (primary_shares hi h ht hu).bind ?_ fun first r r' hr hr' hrest hends => ?_
  · intro first
    split
    · exact (concatParts_within hi.within _ _).bind fun parts hparts =>
        ((arithFrom_within hi.within _ _ _).from hparts).map
    · exact (arithFrom_within hi.within _ _ _).map
  · obtain ⟨t, u, r, r', rfl, rfl, -⟩ := hrest.of_not_ends hends
    dsimp only
    rw [beginsConcat_cons first t (u :: r) (u :: r')]
    split
    · refine (concatParts_shares hi hrest _ _).bind ?_ fun parts s s' hs hs' hrest _ => ?_
      · exact fun parts => (arithFrom_within hi.within _ _ _).map
      · exact (arithFrom_shares hi _ hrest _ _).map
    · exact (arithFrom_shares hi _ hrest _ _).map

/-! ## Conditions -/

/-- Terms are read alike. -/
theorem term_shares (hi : m.NestedShares inner inner') (h : m.Common ts us) (ht hu) :
    m.Shares .here (term inner ts ht) (term inner' us hu) := by
  refine .of_not_ends (term_within hi.within ts ht) fun hends => ?_
  fun_cases term inner ts ht with
  | case1 a rest ht =>
      obtain ⟨_, u, rest, us, heq, rfl, hrest⟩ := h.of_not_ends hends
      cases heq
      rw [term.eq_1, term.eq_1]
      refine (hi.condition _ _ _ _ (hrest.cons u)).bind ?_ fun body r r' hr hr' hrest _ => ?_
      · exact fun body => (sign_within .rparen body.rest).map
      · exact (sign_shares .rparen hrest).map
  | case2 op a rest ht =>
      obtain ⟨_, u, rest, us, heq, rfl, hrest⟩ := h.of_not_ends hends
      cases heq
      rw [term.eq_2, term.eq_2]
      exact .error rfl h
  | case3 ts ht hparen hop =>
      rw [term.eq_3 _ _ _ hparen hop, term.eq_3]
      · refine (arith_shares hi h _ _).bind ?_ fun left r r' hr hr' hrest hends => ?_
        · intro left
          split
          · exact .ok (.refl _)
          · rename_i t rest hr
            split
            · exact .ok (.refl _)
            · rename_i op hcompare
              have hrest : Reaches left.rest rest := by
                rw [hr]
                exact .tail t rest (TokenKind.ne_eof_of_role hcompare rfl)
              exact ((arith_within hi.within rest _).from hrest).map
        · obtain ⟨t, u, r, r', rfl, rfl, hright⟩ := hrest.of_not_ends hends
          dsimp only
          rcases t.kind.compareOp? with _ | op
          · exact .pure hrest
          · exact (arith_shares hi (hright.cons u) _ _).map
      · obtain ⟨t, u, ts, us, rfl, rfl, hrest⟩ := h.of_not_ends hends
        rintro a vs _ heq _
        cases heq
        exact hparen _ _ ht rfl .rfl
      · obtain ⟨t, u, ts, us, rfl, rfl, hrest⟩ := h.of_not_ends hends
        rintro op a vs _ heq _
        cases heq
        exact hop _ _ _ ht rfl .rfl

/-- A condition goes on alike. -/
theorem joinFrom_shares (hi : m.NestedShares inner inner') (level : Nat) (left : Expr)
    (h : m.Common ts us) (ht hu) :
    m.Shares .here (joinFrom inner level left ts ht) (joinFrom inner' level left us hu) := by
  refine .of_not_ends (joinFrom_within hi.within level left ts ht) fun hends => ?_
  fun_induction joinFrom inner level left ts ht generalizing us with
  | case1 level left op a rest ht hlevel _ =>
      obtain ⟨_, u, rest, us, heq, rfl, hrest⟩ := h.of_not_ends hends
      cases heq
      rw [joinFrom.eq_1, if_pos hlevel]
      exact .pure h
  | case2 level left op a rest ht hlevel hoperand _ =>
      obtain ⟨_, u, rest, us, heq, rfl, hrest⟩ := h.of_not_ends hends
      cases heq
      rw [joinFrom.eq_1, if_neg hlevel, if_pos (by exact hoperand)]
      exact .error rfl h
  | case3 level left op a rest ht hlevel hoperand _ ihRight ihWhole =>
      obtain ⟨_, u, rest, us, heq, rfl, hrest⟩ := h.of_not_ends hends
      cases heq
      rw [joinFrom.eq_1, if_neg hlevel, if_neg (by exact hoperand)]
      refine (term_shares hi (hrest.cons u) _ _).bind ?_ fun first r r' hr hr' hrest hends => ?_
      · exact fun first => (joinFrom_within hi.within _ _ _ _).bind fun right hright =>
          ((joinFrom_within hi.within _ _ _ _).from hright).map
      refine (ihRight ⟨first, r, hr⟩ hrest _ hends).bind ?_ fun right s s' hs hs' hrest hends => ?_
      · exact fun right => (joinFrom_within hi.within _ _ _ _).map
      exact (ihWhole ⟨first, r, hr⟩ ⟨right, s, hs⟩ hrest _ hends).map
  | case4 level left ts ht hop _ =>
      obtain ⟨t, u, ts, us, rfl, rfl, hrest⟩ := h.of_not_ends hends
      rw [joinFrom.eq_2]
      · exact .pure h
      · rintro op a vs _ heq _
        cases heq
        exact hop _ _ _ ht rfl .rfl

/-- Conditions are read alike. -/
theorem condition_shares (hi : m.NestedShares inner inner') (h : m.Common ts us) (ht hu) :
    m.Shares .here (condition inner ts ht) (condition inner' us hu) := by
  refine (term_shares hi h ht hu).bind ?_ fun first r r' hr hr' hrest _ => ?_
  · exact fun first => (joinFrom_within hi.within 1 first.value first.rest _).map
  · exact (joinFrom_shares hi 1 first hrest _ _).map

/-! ## Expressions -/

/-- Expressions are read alike, although they are read twice. -/
theorem expression_shares (hi : m.NestedShares inner inner') (h : m.Common ts us) (ht hu) :
    m.Shares .here (expression inner ts ht) (expression inner' us hu) := by
  refine .of_not_ends (expression_within hi.within ts ht) fun hends => ?_
  obtain ⟨⟨k, a⟩, u, ts, us, rfl, rfl, hrest⟩ := h.of_not_ends hends
  by_cases hop : ∃ op, k = .combinator op
  · obtain ⟨op, rfl⟩ := hop
    rw [expression_combinator, expression_combinator]
    exact .expecting h
  · have hne : ∀ vs op b ws, (⟨k, a⟩ :: vs : List Token) ≠ ⟨.combinator op, b⟩ :: ws := by
      rintro vs op b ws heq
      cases heq
      exact hop ⟨op, rfl⟩
    rw [expression_eq_condition inner _ ht (hne _), expression_eq_condition inner' _ hu (hne _)]
    exact condition_shares hi h ht hu

/-! ## The knot -/

/-- What stands in brackets is read alike. -/
theorem nested_shares (m : Fork) (i j : Nat) : m.NestedShares (nested i) (nested j) := by
  induction i using Nat.strongRecOn generalizing j with
  | ind i ih =>
      refine ⟨nested_within i, ?_, ?_⟩
      · intro ts us ht hu h
        rw [nested, nested]
        exact expression_shares (ih _ ht _) h _ _
      · intro ts us ht hu h
        rw [nested, nested]
        exact condition_shares (ih _ ht _) h _ _

/-- Expressions are read alike. -/
theorem readExpression_shares (h : m.Common ts us) :
    m.Shares .here (readExpression ts) (readExpression us) :=
  expression_shares (nested_shares m _ _) h _ _

/-- Conditions are read alike. -/
theorem readCondition_shares (h : m.Common ts us) :
    m.Shares .here (readCondition ts) (readCondition us) :=
  condition_shares (nested_shares m _ _) h _ _

/-- The steps of a reference are read alike. -/
theorem readSteps_shares (h : m.Common ts us) : m.Shares .here (readSteps ts) (readSteps us) :=
  steps_shares (nested_shares m _ _) h _ _

/-- The arguments of a call are read alike. -/
theorem readArguments_shares (h : m.Common ts us) :
    m.Shares .here (readArguments ts) (readArguments us) :=
  arguments_shares (nested_shares m _ _) h _ _

end Fork

end Edict

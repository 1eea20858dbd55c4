import Edict.Proofs.Grammar.ExpressionComplete
import Edict.Proofs.Grammar.StatementSound

/-!
# Programs that are derived are read

The rules for statements are ambiguous: where several bodies are open, a `;` or an `else` may belong
to more than one of them.  The readers are greedy and give both to the innermost body that may take
them.  So the tree that is read need not be the one that was derived, and it cannot be shown that a
derived statement is read with just its own tokens.

What holds instead: if the tokens behind a statement complete a program, given the bodies that are
open, then so do the tokens that the reader leaves (`Grammar.Inner.Complete`).
`Completes opened ts` says what it is to complete a program; greed never loses it, because whatever
an outer body may do with the tokens at hand, the innermost one may do as well.

## Main definitions

* `Derives.Completes`: tokens complete a program, given for each open body whether it may take an
  `else`.
* `Derives.Ended`: they do so behind a body that has ended.
* `Grammar.Inner.Complete`: readers for the statements of bodies do not lose this.

## Main statements

* `Grammar.readStatement_complete`: for every derived statement, whatever is open around it.
* `Grammar.readProgram_complete`: a list that is derived as a program is read as one.
-/

namespace Edict

open Grammar Derives

namespace Derives

/-- The tokens complete a program: they close all the open bodies, the innermost first, go on with
further statements of the program, and end.  A body that is open is marked by whether an `else` may
follow it. -/
inductive Completes : List Bool → List Token → Prop
  | finish {seps rest : List Token} :
      Separators seps → (Token.peek rest).kind = .eof → Completes [] (seps ++ rest)
  | separated {t : Token} {seps us ts : List Token} {s : Stmt} :
      t.kind.isSeparator = true → Separators seps → Statement us s → Completes [] ts →
      Completes [] (t :: (seps ++ (us ++ ts)))
  | further {b : Bool} {opened : List Bool} {s : Span} {us ts : List Token} {first : Stmt} :
      Statement us first → Completes (b :: opened) ts →
      Completes (b :: opened) (⟨.symbol .semicolon, s⟩ :: (us ++ ts))
  | close {b : Bool} {opened : List Bool} {semi ts : List Token} :
      Semicolon? semi → Completes opened ts → Completes (b :: opened) (semi ++ ts)
  | closeElse {opened : List Bool} {semi nl us ts : List Token} {s : Span} {d : List Stmt} :
      Semicolon? semi → Newlines nl → Body us d → Completes opened ts →
      Completes (true :: opened) (semi ++ (nl ++ ⟨.keyword .elseKw, s⟩ :: (us ++ ts)))

/-- The same right behind the innermost body. -/
def Ended (b : Bool) (opened : List Bool) (ts : List Token) : Prop :=
  Completes opened ts ∨ b = true ∧ ∃ nl s us d vs, Newlines nl ∧ Body us d ∧ Completes opened vs ∧
    ts = nl ++ ⟨.keyword .elseKw, s⟩ :: (us ++ vs)

end Derives

/-- Whether a body may end in front of the token. -/
def TokenKind.endsBody : TokenKind → Bool
  | .newline | .symbol .semicolon | .keyword .elseKw | .eof => true
  | _ => false

/-- What ends a body goes on with no expression. -/
theorem tightness_of_endsBody {k : TokenKind} (h : k.endsBody = true) : k.tightness = 0 := by
  unfold TokenKind.endsBody at h
  split at h <;> first | rfl | cases h

/-- What ends a body begins no statement. -/
theorem startsStatement_of_endsBody {ts : List Token}
    (h : (Token.peek ts).kind.endsBody = true) : startsStatement ts = false := by
  unfold startsStatement
  split
  · rename_i hk
    rw [hk] at h
    cases h
  · rename_i hk
    rw [hk] at h
    cases h
  · rename_i hk
    rw [hk] at h
    cases h
  · rfl

/-- More tokens behind a statement do not change what it begins with. -/
theorem startsStatement_append {ts : List Token} (h : startsStatement ts = true) (us : List Token) :
    startsStatement (ts ++ us) = true := by
  rcases ts with _ | ⟨t, ts⟩
  · cases h
  · exact h

/-- In front of a statement nothing is skipped. -/
theorem skip_of_startsStatement {ts : List Token} (h : startsStatement ts = true) :
    Token.skipNewlines ts = ts ∧ Token.skipSeparators ts = ts := by
  have hend := endsStatement_of_startsStatement h
  rcases ts with _ | ⟨t, ts⟩
  · cases h
  · have hsep : t.kind.isSeparator = false := (Bool.or_eq_false_iff.mp hend).1
    refine ⟨skipNewlines_cons ?_ ts, skipSeparators_cons hsep ts⟩
    unfold TokenKind.isNewline
    split
    · rename_i hk
      rw [hk] at hsep
      cases hsep
    · rfl

/-- Separators end a body. -/
theorem endsBody_of_isSeparator {k : TokenKind} (h : k.isSeparator = true) : k.endsBody = true := by
  unfold TokenKind.isSeparator at h
  split at h <;> first | rfl | cases h

/-- What ends statements ends bodies. -/
theorem endsBody_of_endsStatement {k : TokenKind} (h : k.endsStatement = true) :
    k.endsBody = true := by
  obtain hsep | heof := Bool.or_eq_true_iff.mp h
  · exact endsBody_of_isSeparator hsep
  · unfold TokenKind.isEof at heof
    split at heof
    · rfl
    · cases heof

/-! ## What the tokens that complete a program begin with -/

namespace Derives

variable {b : Bool} {opened : List Bool} {ts us : List Token} {t : Span}

/-- A list of separators goes on to end a body. -/
theorem Separators.endsBody (h : Separators us) (hts : (Token.peek ts).kind.endsBody = true) :
    (Token.peek (us ++ ts)).kind.endsBody = true := by
  rcases us with _ | ⟨u, us⟩
  · exact hts
  · exact endsBody_of_isSeparator (h u List.mem_cons_self)

/-- An optional `;` is a list of separators. -/
theorem Semicolon?.separators (h : Semicolon? us) : Separators us := by
  rcases h with rfl | ⟨s, rfl⟩
  · exact Separators.nil
  · intro u hu
    obtain rfl := List.mem_singleton.mp hu
    rfl

/-- What completes a program begins with a token that ends a body. -/
theorem Completes.endsBody (h : Completes opened ts) :
    (Token.peek ts).kind.endsBody = true := by
  induction h with
  | finish hseps heof => exact hseps.endsBody (by rw [heof]; rfl)
  | separated ht _ _ _ => exact endsBody_of_isSeparator ht
  | further => rfl
  | close hsemi _ ih => exact hsemi.separators.endsBody ih
  | closeElse hsemi hnl _ _ _ => exact hsemi.separators.endsBody (hnl.separators.endsBody rfl)

/-- No expression goes on with what completes a program. -/
theorem Completes.endsAt (h : Completes opened ts) {n : Nat} (hn : 0 < n) : EndsAt n ts := by
  rw [EndsAt, tightness_of_endsBody h.endsBody]
  exact hn

/-- An `else` behind line breaks is no `;`. -/
theorem Newlines.else_ne_semicolon {nl vs : List Token} {s : Span} (h : Newlines nl) :
    nl ++ ⟨.keyword .elseKw, s⟩ :: vs ≠ ⟨.symbol .semicolon, t⟩ :: us := by
  rcases nl with _ | ⟨u, nl⟩
  · intro heq
    cases heq
  · intro heq
    cases heq
    cases h _ List.mem_cons_self

/-- Among separators, line breaks are skipped up to a `;`. -/
theorem Separators.skipNewlines (h : Separators us) (ts : List Token) :
    Token.skipNewlines (us ++ ts) = Token.skipNewlines ts ∨
      (Token.peek (Token.skipNewlines (us ++ ts))).kind = .symbol .semicolon := by
  induction us with
  | nil => exact .inl rfl
  | cons u us ih =>
      have hu : u.kind.isSeparator = true := h u List.mem_cons_self
      unfold TokenKind.isSeparator at hu
      split at hu
      · rename_i hk
        have hskip : Token.skipNewlines (u :: us ++ ts) = Token.skipNewlines (us ++ ts) :=
          List.dropWhile_cons_of_pos (by rw [hk]; rfl)
        rw [hskip]
        exact ih fun v hv => h v (List.mem_cons_of_mem _ hv)
      · rename_i hk
        refine .inr ?_
        rw [List.cons_append, skipNewlines_cons (by rw [hk]; rfl), peek_cons, hk]
      · cases hu

/-! ## What an outer body may do, an inner one may do -/

/-- A body may end without a `;` of its own. -/
theorem Ended.completes (h : Ended b opened ts) : Completes (b :: opened) ts := by
  rcases h with h | ⟨rfl, nl, s, us, d, vs, hnl, hbody, hvs, rfl⟩
  · exact .close Semicolon?.nil h
  · exact .closeElse Semicolon?.nil hnl hbody hvs

/-- A statement behind a `;` goes on with what is open. -/
theorem Completes.statement (h : Completes opened ts) (hts : ts = ⟨.symbol .semicolon, t⟩ :: us)
    (hus : startsStatement us = true) :
    ∃ vs s ws, us = vs ++ ws ∧ Statement vs s ∧ Completes opened ws := by
  have hne : (Token.peek us).kind.endsBody ≠ true := by
    intro hend
    rw [startsStatement_of_endsBody hend] at hus
    cases hus
  induction h with
  | @finish seps rest hseps heof =>
      rcases seps with _ | ⟨u, seps⟩
      · rw [List.nil_append] at hts
        rw [hts] at heof
        cases heof
      · cases hts
        refine absurd (Separators.endsBody (fun u hu => hseps u (List.mem_cons_of_mem _ hu)) ?_) hne
        rw [heof]
        rfl
  | @separated u seps vs ws s _ hseps hs hws _ =>
      cases hts
      rcases seps with _ | ⟨u, seps⟩
      · exact ⟨vs, s, ws, rfl, hs, hws⟩
      · exact absurd (endsBody_of_isSeparator (hseps u List.mem_cons_self)) hne
  | further hs hws _ =>
      cases hts
      exact ⟨_, _, _, rfl, hs, hws⟩
  | close hsemi hrest ih =>
      rcases hsemi with rfl | ⟨s, rfl⟩
      · obtain ⟨vs, s, ws, hvs, hs, hws⟩ := ih hts
        exact ⟨vs, s, ws, hvs, hs, .close Semicolon?.nil hws⟩
      · cases hts
        exact absurd hrest.endsBody hne
  | closeElse hsemi hnl _ _ _ =>
      rcases hsemi with rfl | ⟨s, rfl⟩
      · exact absurd hts hnl.else_ne_semicolon
      · cases hts
        exact absurd (hnl.separators.endsBody rfl) hne

/-- A `;` that no statement follows ends the innermost body, or may be left out. -/
theorem Completes.ended_of_semicolon (h : Completes (b :: opened) ts)
    (hts : ts = ⟨.symbol .semicolon, t⟩ :: us) (hus : startsStatement us = false)
    (hdrop : Completes opened ts → Completes opened us) : Ended b opened us := by
  cases h with
  | @further _ _ _ vs ws _ hs _ =>
      cases hts
      obtain ⟨-, -, -, hstarts⟩ := hs.head ws
      rw [hstarts] at hus
      cases hus
  | close hsemi hrest =>
      rcases hsemi with rfl | ⟨s, rfl⟩
      · exact .inl (hdrop hrest)
      · cases hts
        exact .inl hrest
  | closeElse hsemi hnl hbody hrest =>
      rcases hsemi with rfl | ⟨s, rfl⟩
      · exact absurd hts hnl.else_ne_semicolon
      · cases hts
        exact .inr ⟨rfl, _, _, _, _, _, hnl, hbody, hrest, rfl⟩

/-- A `;` that no statement follows may be left out. -/
theorem Completes.drop_semicolon (h : Completes opened ts)
    (hts : ts = ⟨.symbol .semicolon, t⟩ :: us) (hus : startsStatement us = false) :
    Completes opened us := by
  induction opened with
  | nil =>
      cases h with
      | @finish seps rest hseps heof =>
          rcases seps with _ | ⟨u, seps⟩
          · rw [List.nil_append] at hts
            rw [hts] at heof
            cases heof
          · cases hts
            exact .finish (fun u hu => hseps u (List.mem_cons_of_mem _ hu)) heof
      | @separated u seps vs ws s _ hseps hs hws =>
          cases hts
          rcases seps with _ | ⟨u, seps⟩
          · obtain ⟨-, -, -, hstarts⟩ := hs.head ws
            rw [List.nil_append, hstarts] at hus
            cases hus
          · exact .separated (hseps u List.mem_cons_self)
              (fun u hu => hseps u (List.mem_cons_of_mem _ hu)) hs hws
  | cons b opened ih => exact (h.ended_of_semicolon hts hus ih).completes

/-- A body that no `;` follows has ended. -/
theorem Completes.ended (h : Completes (b :: opened) ts)
    (hts : ∀ t us, ts ≠ ⟨.symbol .semicolon, t⟩ :: us) : Ended b opened ts := by
  cases h with
  | further => exact absurd rfl (hts _ _)
  | close hsemi hrest =>
      rcases hsemi with rfl | ⟨s, rfl⟩
      · exact .inl hrest
      · exact absurd rfl (hts _ _)
  | closeElse hsemi hnl hbody hrest =>
      rcases hsemi with rfl | ⟨s, rfl⟩
      · exact .inr ⟨rfl, _, _, _, _, _, hnl, hbody, hrest, rfl⟩
      · exact absurd rfl (hts _ _)

/-- The body behind an `else` goes on with what is open. -/
theorem Completes.elseBody (h : Completes opened ts)
    (hts : Token.skipNewlines ts = ⟨.keyword .elseKw, t⟩ :: us) :
    ∃ vs d ws, us = vs ++ ws ∧ Body vs d ∧ Completes opened ws := by
  have hkind : (Token.peek (Token.skipNewlines ts)).kind = .keyword .elseKw := by rw [hts]; rfl
  induction h with
  | @finish seps rest hseps heof =>
      rcases hseps.skipNewlines rest with hskip | hskip
      · have hrest : Token.skipNewlines rest = rest := by
          rcases rest with _ | ⟨u, rest⟩
          · rfl
          · exact skipNewlines_cons (by rw [peek_cons] at heof; rw [heof]; rfl) rest
        rw [hskip, hrest, heof] at hkind
        cases hkind
      · rw [hskip] at hkind
        cases hkind
  | @separated u seps vs ws s hu hseps hs hws _ =>
      have hall : Separators (u :: seps) := by
        intro v hv
        rcases List.mem_cons.mp hv with rfl | hv
        · exact hu
        · exact hseps v hv
      rcases hall.skipNewlines (vs ++ ws) with hskip | hskip
      · rw [← List.cons_append, hskip] at hkind
        obtain ⟨-, -, -, hstarts⟩ := hs.head ws
        rw [(skip_of_startsStatement hstarts).1] at hkind
        unfold startsStatement at hstarts
        rw [hkind] at hstarts
        cases hstarts
      · rw [← List.cons_append, hskip] at hkind
        cases hkind
  | further =>
      rw [skipNewlines_cons rfl] at hts
      cases hts
  | close hsemi _ ih =>
      rcases hsemi with rfl | ⟨s, rfl⟩
      · obtain ⟨vs, d, ws, hvs, hd, hws⟩ := ih hts hkind
        exact ⟨vs, d, ws, hvs, hd, .close Semicolon?.nil hws⟩
      · cases hkind
  | closeElse hsemi hnl hbody hrest _ =>
      rcases hsemi with rfl | ⟨s, rfl⟩
      · rw [List.nil_append, skipNewlines_append hnl, skipNewlines_cons rfl] at hts
        cases hts
        exact ⟨_, _, _, rfl, hbody, .close Semicolon?.nil hrest⟩
      · cases hkind

/-- The statements of a body, and what stands behind it, complete a program from the first of them
on. -/
theorem Ended.completes_body (h : Ended b opened ts) {vs semi : List Token} {rest : List Stmt}
    (hrest : Star Further vs rest) (hsemi : Semicolon? semi) :
    Completes (b :: opened) (vs ++ (semi ++ ts)) := by
  induction hrest with
  | nil =>
      rw [List.nil_append]
      rcases h with h | ⟨rfl, nl, s, us, d, ws, hnl, hbody, hws, rfl⟩
      · exact .close hsemi h
      · exact .closeElse hsemi hnl hbody hws
  | cons hfirst _ ih =>
      cases hfirst with
      | mk hs =>
          rw [List.append_assoc]
          exact .further hs ih

/-- Nothing but the completion of a program stands behind the body of a loop. -/
theorem Ended.of_loop (h : Ended false opened ts) : Completes opened ts := by
  rcases h with h | ⟨hfalse, -⟩
  · exact h
  · cases hfalse

/-- Behind a body, the one behind `else` goes on with what is open. -/
theorem Ended.elseBody (h : Ended b opened ts)
    (hts : Token.skipNewlines ts = ⟨.keyword .elseKw, t⟩ :: us) :
    ∃ vs d ws, us = vs ++ ws ∧ Body vs d ∧ Completes opened ws := by
  rcases h with h | ⟨-, nl, s, vs, d, ws, hnl, hbody, hws, rfl⟩
  · exact h.elseBody hts
  · rw [skipNewlines_append hnl, skipNewlines_cons rfl] at hts
    cases hts
    exact ⟨vs, d, ws, rfl, hbody, hws⟩

/-- Behind a body without `else`, nothing but the completion of a program stands. -/
theorem Ended.of_no_else (h : Ended b opened ts)
    (hts : ∀ t us, Token.skipNewlines ts ≠ ⟨.keyword .elseKw, t⟩ :: us) : Completes opened ts := by
  rcases h with h | ⟨-, nl, s, vs, d, ws, hnl, -, -, rfl⟩
  · exact h
  · exact absurd ((skipNewlines_append hnl _).trans (skipNewlines_cons rfl _)) (hts s _)

end Derives

namespace Grammar

/-! ## Parts of statements -/

section arrays

variable {t : Token} {item : Literal} {s : Span} {after rest : List Token} {items : List Literal}

/-- An item and a comma are followed by the further items. -/
theorem arrayItems_comma {next : List Token} (hitem : t.kind.item? = some item)
    (hafter : Token.skipNewlines after = ⟨.symbol .comma, s⟩ :: next)
    (hmore : Gives (arrayItems (Token.skipNewlines next)) items rest) :
    Gives (arrayItems (t :: after)) (item :: items) rest := by
  rw [arrayItems]
  simp only [hitem]
  split
  · rename_i hr
    rw [hafter] at hr
    cases hr
    exact hmore.bind fun _ => gives_of_eq_ok rfl
  · rename_i hr
    rw [hafter] at hr
    cases hr
  · rename_i hne _
    exact absurd hafter (hne _ _)

/-- The last item is followed by the closing bracket. -/
theorem arrayItems_rbracket (hitem : t.kind.item? = some item)
    (hafter : Token.skipNewlines after = ⟨.symbol .rbracket, s⟩ :: rest) :
    Gives (arrayItems (t :: after)) [item] rest := by
  rw [arrayItems]
  simp only [hitem]
  split
  · rename_i hr
    rw [hafter] at hr
    cases hr
  · rename_i hr
    rw [hafter] at hr
    cases hr
    exact gives_of_eq_ok rfl
  · rename_i hne
    exact absurd hafter (hne _ _)

/-- An item of an array has a first token. -/
theorem ArrayItem.head {us : List Token} {item : Literal} (h : ArrayItem us item) :
    ∃ t vs, us = t :: vs ∧ t.kind.isNewline = false := by
  cases h with
  | @mk t _ hitem =>
      refine ⟨t, [], rfl, ?_⟩
      rcases hk : t.kind <;> first | rfl | (rw [hk] at hitem; cases hitem)

/-- The items of an array are read with the closing bracket. -/
theorem arrayItems_complete {us : List Token} (hitems : Items ArrayItem us items) (s : Span)
    (rest : List Token) :
    Gives (arrayItems (us ++ ⟨.symbol .rbracket, s⟩ :: rest)) items rest := by
  induction hitems with
  | @last ts nl item hitem hnl =>
      cases hitem with
      | mk hitem =>
          rw [List.append_assoc, List.cons_append, List.nil_append]
          exact arrayItems_rbracket hitem
            ((skipNewlines_append hnl _).trans (skipNewlines_cons rfl _))
  | @more ts nl nl' us c item items hitem hnl hnl' hitems ih =>
      cases hitem with
      | mk hitem =>
          rw [List.append_assoc, List.cons_append, List.nil_append, List.append_assoc,
            List.cons_append, List.append_assoc]
          refine arrayItems_comma hitem
            ((skipNewlines_append hnl _).trans (skipNewlines_cons rfl _)) ?_
          rw [skipNewlines_append hnl', hitems.skipNewlines_eq fun _ _ => ArrayItem.head]
          exact ih

/-- Arrays are read. -/
theorem arrayLiteral_complete {us : List Token} (hitems : Delimited false ArrayItem us items)
    (s t : Span) (rest : List Token) :
    Gives (arrayLiteral (⟨.symbol .lbracket, s⟩ :: (us ++ ⟨.symbol .rbracket, t⟩ :: rest)))
      items rest := by
  refine (gives_sign .lbracket s _).bind fun _ => ?_
  obtain ⟨nl, vs, hnl, hvs, h⟩ := hitems.exists_closing .rbracket t rest
  have hskip := congrArg Token.skipNewlines hvs
  rw [skipNewlines_append hnl] at hskip
  rcases h with ⟨rfl, rfl⟩ | ⟨ts, tail, hitems, rfl, htail⟩
  · rw [skipNewlines_cons rfl] at hskip
    dsimp only
    split
    · rename_i hr
      rw [hskip] at hr
      cases hr
      exact gives_of_eq_ok rfl
    · rename_i hne
      exact absurd hskip (hne _ _)
  · rw [hitems.skipNewlines_eq fun _ _ => ArrayItem.head] at hskip
    cases htail
    have hgives := arrayItems_complete hitems ‹Span› rest
    rw [← hskip] at hgives
    dsimp only
    split
    · rename_i hr
      rw [hr] at hgives
      obtain ⟨_, hgives⟩ := hgives
      rw [arrayItems] at hgives
      cases hgives
    · exact hgives.bind fun _ => gives_of_eq_ok rfl

end arrays

/-- References are read, as long as no step and no parenthesis follows. -/
theorem reference_complete {us rest : List Token} {r : Reference} (hr : Place us r)
    (hrest : EndsAt 4 rest) : Gives (reference (us ++ rest)) r rest := by
  obtain ⟨_, _, _, _, rfl, rfl, hpath⟩ := hr.exists_path
  exact (readSteps_complete hpath hrest).bind fun _ => gives_of_eq_ok rfl

/-- Calls are read. -/
theorem call_complete {us : List Token} {c : String × List Expr} (hc : Call us c)
    (rest : List Token) :
    Gives (call (us ++ rest)) c rest := by
  cases hc with
  | mk hargs =>
      rw [List.cons_append, List.cons_append, List.append_assoc, List.singleton_append]
      refine (gives_sign .lparen _ _).bind fun _ => ?_
      exact (readArguments_complete hargs _).bind fun _ => gives_of_eq_ok rfl

/-- Assignments are read. -/
theorem assignment_complete {ps us rest : List Token} {t : Token} {r : Reference} {op : AssignOp}
    {e : Expr} (hr : Place ps r) (hop : t.kind.assignOp? = some op) (he : Boolean us e)
    (hrest : EndsAt 1 rest) :
    Gives (assignment (ps ++ t :: (us ++ rest))) (.assign r op e) rest := by
  have hend : EndsAt 4 (t :: (us ++ rest)) := by
    rw [endsAt_cons, tightness_of_assignOp? hop]
    exact Nat.zero_lt_succ 3
  refine (reference_complete hr hend).bind fun _ => ?_
  simp only [hop]
  exact (readExpression_complete he hrest).bind fun _ => gives_of_eq_ok rfl

/-! ## Statements and bodies -/

variable {limit : Nat}

/-- What the reader for the statements of bodies leaves completes a program if what it is given
does. -/
def Inner.Complete (inner : Inner limit) : Prop :=
  ∀ us s opened ts, Statement us s → Completes opened ts → ∀ h,
    ∃ s' rest, Gives (inner (us ++ ts) h) s' rest ∧ Completes opened rest

variable {inner : Inner limit} {b : Bool} {opened : List Bool}

/-- The same with line breaks in front of the statement. -/
theorem Inner.Complete.skipNewlines (hi : Inner.Complete inner) {nl us ts : List Token} {s : Stmt}
    (hnl : Newlines nl) (hs : Statement us s) (hts : Completes opened ts) :
    ∀ h, ∃ s' rest, Gives (inner (Token.skipNewlines (nl ++ (us ++ ts))) h) s' rest ∧
      Completes opened rest := by
  obtain ⟨-, -, -, hstarts⟩ := hs.head ts
  rw [skipNewlines_append hnl, (skip_of_startsStatement hstarts).1]
  exact hi us s opened ts hs hts

/-- The further statements of a body are read up to where a body has ended. -/
theorem bodyFrom_complete (hi : Inner.Complete inner) (ts : List Token) (h : ts.length ≤ limit) :
    Completes (b :: opened) ts →
      ∃ more rest, Gives (bodyFrom inner ts h) more rest ∧ Ended b opened rest := by
  fun_induction bodyFrom inner ts h with
  | case1 s rest h hstarts _ ih =>
      intro hts
      obtain ⟨us, first, vs, rfl, hfirst, hvs⟩ := hts.statement rfl hstarts
      obtain ⟨s', next, hgives, hnext⟩ := hi us first _ vs hfirst hvs h
      obtain ⟨more, after, hmore, hafter⟩ := ih ⟨s', next, hgives.length_lt⟩ hnext
      refine ⟨s' :: more, after, hgives.bind fun _ => ?_, hafter⟩
      exact hmore.bind fun _ => gives_of_eq_ok rfl
  | case2 s rest h hstarts =>
      intro hts
      have hstarts : startsStatement rest = false := by simpa using hstarts
      refine ⟨[], rest, gives_of_eq_ok rfl, hts.ended_of_semicolon rfl hstarts fun hts => ?_⟩
      exact hts.drop_semicolon rfl hstarts
  | case3 ts h hne =>
      intro hts
      refine ⟨[], ts, gives_of_eq_ok rfl, hts.ended ?_⟩
      rintro s us rfl
      exact hne s us h rfl HEq.rfl

/-- A body is read up to where one has ended. -/
theorem body_complete (hi : Inner.Complete inner) {us ts : List Token} {d : List Stmt}
    (hbody : Body us d) (hts : Ended b opened ts) :
    ∀ h, ∃ d' rest, Gives (body inner (us ++ ts) h) d' rest ∧ Ended b opened rest := by
  cases hbody with
  | @mk nl us vs semi first more hnl hfirst hmore hsemi =>
      rw [List.append_assoc, List.append_assoc, List.append_assoc]
      intro h
      obtain ⟨s', next, hgives, hnext⟩ := hi.skipNewlines hnl hfirst
        (hts.completes_body hmore hsemi) (Nat.lt_of_le_of_lt (Token.length_skipNewlines_le _) h)
      have hlt := Nat.lt_of_lt_of_le hgives.length_lt (Token.length_skipNewlines_le _)
      obtain ⟨more', after, hmore', hafter⟩ :=
        bodyFrom_complete hi next (Nat.le_of_lt (Nat.lt_trans hlt h)) hnext
      refine ⟨s' :: more', after, hgives.bind fun _ => ?_, hafter⟩
      exact hmore'.bind fun _ => gives_of_eq_ok rfl

section branches

variable {ts us next after rest : List Token} {c : Expr} {d e : List Stmt} {s t : Span}

/-- A branch goes on behind an `else`. -/
theorem branch_else (htest : Gives (readCondition ts) c (⟨.keyword .thenKw, s⟩ :: us))
    (hthen : ∀ h, Gives (body inner us h) d next)
    (hnext : Token.skipNewlines next = ⟨.keyword .elseKw, t⟩ :: after)
    (helse : ∀ h, Gives (body inner after h) e rest) (h : ts.length < limit) :
    Gives (branch inner ts h) (.branch c d (some e)) rest := by
  refine htest.bind fun _ => ?_
  dsimp only
  refine (hthen _).bind fun _ => ?_
  dsimp only
  split
  · rename_i hr
    rw [hnext] at hr
    cases hr
    exact (helse _).bind fun _ => gives_of_eq_ok rfl
  · rename_i hne
    exact absurd hnext (hne _ _)

/-- A branch ends where no `else` follows. -/
theorem branch_no_else (htest : Gives (readCondition ts) c (⟨.keyword .thenKw, s⟩ :: us))
    (hthen : ∀ h, Gives (body inner us h) d next)
    (hnext : ∀ t after, Token.skipNewlines next ≠ ⟨.keyword .elseKw, t⟩ :: after)
    (h : ts.length < limit) : Gives (branch inner ts h) (.branch c d none) next := by
  refine htest.bind fun _ => ?_
  dsimp only
  refine (hthen _).bind fun _ => ?_
  dsimp only
  split
  · rename_i hr
    exact absurd hr (hnext _ _)
  · exact gives_of_eq_ok rfl

end branches

/-- Branches are read; whatever is left completes a program. -/
theorem branch_complete (hi : Inner.Complete inner) {cs us ts : List Token} {c : Expr}
    {d : List Stmt} {s : Span} (hc : Boolean cs c) (hbody : Body us d) (hts : Ended true opened ts) :
    ∀ h, ∃ s' rest, Gives (branch inner (cs ++ ⟨.keyword .thenKw, s⟩ :: (us ++ ts)) h) s' rest ∧
      Completes opened rest := by
  intro h
  have htest : Gives (readCondition (cs ++ ⟨.keyword .thenKw, s⟩ :: (us ++ ts))) c _ :=
    readCondition_complete hc Nat.zero_lt_one
  have hlt : (us ++ ts).length < limit := Nat.lt_trans (Nat.lt_of_succ_lt htest.length_lt) h
  obtain ⟨d', next, hthen, hnext⟩ := body_complete hi hbody hts hlt
  by_cases helse : ∃ t after, Token.skipNewlines next = ⟨.keyword .elseKw, t⟩ :: after
  · obtain ⟨t, after, hafter⟩ := helse
    obtain ⟨vs, e, ws, rfl, hbody', hws⟩ := hnext.elseBody hafter
    have hltAfter : (vs ++ ws).length < limit :=
      Nat.lt_trans (Token.length_lt_of_skipNewlines hafter) (Nat.lt_trans hthen.length_lt hlt)
    obtain ⟨e', rest, helse, hrest⟩ :=
      body_complete hi hbody' (Or.inl hws : Ended false opened ws) hltAfter
    exact ⟨_, rest, branch_else htest (fun _ => hthen) hafter (fun _ => helse) h, hrest.of_loop⟩
  · have hnone : ∀ t after, Token.skipNewlines next ≠ ⟨.keyword .elseKw, t⟩ :: after :=
      fun t after hafter => helse ⟨t, after, hafter⟩
    exact ⟨_, next, branch_no_else htest (fun _ => hthen) hnone h, hnext.of_no_else hnone⟩

/-- A statement begins with no step of a path and no parenthesis. -/
theorem endsAt_of_startsStatement {ts : List Token} (h : startsStatement ts = true) : EndsAt 4 ts := by
  unfold startsStatement at h
  unfold EndsAt
  split at h
  · rename_i hk
    rw [hk]
    exact Nat.zero_lt_succ 3
  · rename_i hk
    rw [hk]
    exact Nat.zero_lt_succ 3
  · rename_i hk
    rw [hk]
    exact Nat.zero_lt_succ 3
  · cases h

/-- No step of a path and no parenthesis begins a body. -/
theorem endsAt_body {us : List Token} {d : List Stmt} (hbody : Body us d) (ts : List Token) :
    EndsAt 4 (us ++ ts) := by
  cases hbody with
  | @mk nl us vs semi first more hnl hfirst _ _ =>
      rw [List.append_assoc]
      refine hnl.endsAt (Nat.zero_lt_succ 3) ?_
      obtain ⟨-, -, -, hstarts⟩ := hfirst.head (vs ++ semi ++ ts)
      rw [List.append_assoc]
      exact endsAt_of_startsStatement hstarts

/-- The body of a loop is read; whatever is left completes a program. -/
theorem loopBody_complete (hi : Inner.Complete inner) {us ts : List Token} {d : List Stmt}
    (hbody : Body us d) (hts : Completes opened ts) :
    ∀ h, ∃ d' rest, Gives (body inner (us ++ ts) h) d' rest ∧ Completes opened rest := by
  intro h
  obtain ⟨d', rest, hgives, hrest⟩ := body_complete hi hbody (Or.inl hts : Ended false opened ts) h
  exact ⟨d', rest, hgives, hrest.of_loop⟩

section loops

variable {us ts : List Token} {d : List Stmt}

/-- Counting loops are read. -/
theorem loop_count (hi : Inner.Complete inner) {cs : List Token} {c : Expr} {s t : Span}
    (hc : Boolean cs c) (hbody : Body us d) (hts : Completes opened ts) :
    ∀ h, ∃ s' rest, Gives (loop inner (⟨.symbol .lparen, s⟩ ::
        (cs ++ ⟨.symbol .rparen, t⟩ :: (us ++ ts))) h) s' rest ∧ Completes opened rest := by
  intro h
  have hbound : Gives (readExpression (cs ++ ⟨.symbol .rparen, t⟩ :: (us ++ ts))) c _ :=
    readExpression_complete hc Nat.zero_lt_one
  obtain ⟨d', rest, hgives, hrest⟩ := loopBody_complete hi hbody hts
    (Nat.lt_trans (Nat.lt_of_succ_lt hbound.length_lt) (Nat.lt_of_succ_lt h))
  refine ⟨.count c d', rest, ?_, hrest⟩
  refine hbound.bind fun _ => (gives_sign _ _ _).bind fun _ => ?_
  exact hgives.bind fun _ => gives_of_eq_ok rfl

/-- Loops over the items of an array are read. -/
theorem loop_eachItem (hi : Inner.Complete inner) {is : List Token} {items : List Literal}
    {s t u : Span} (hitems : Delimited false ArrayItem is items) (hbody : Body us d)
    (hts : Completes opened ts) :
    ∀ h, ∃ s' rest, Gives (loop inner (⟨.keyword .eachKw, s⟩ :: ⟨.symbol .lbracket, t⟩ ::
        (is ++ ⟨.symbol .rbracket, u⟩ :: (us ++ ts))) h) s' rest ∧ Completes opened rest := by
  intro h
  have harray := arrayLiteral_complete hitems t u (us ++ ts)
  obtain ⟨d', rest, hgives, hrest⟩ := loopBody_complete hi hbody hts
    (Nat.lt_trans harray.length_lt (Nat.lt_of_succ_lt h))
  refine ⟨.each (.literals items) d', rest, ?_, hrest⟩
  exact harray.bind fun _ => hgives.bind fun _ => gives_of_eq_ok rfl

/-- Loops over the items of a value are read. -/
theorem loop_eachOf (hi : Inner.Complete inner) {ps : List Token} {r : Reference} {s : Span}
    (hr : Place ps r) (hbody : Body us d) (hts : Completes opened ts) :
    ∀ h, ∃ s' rest, Gives (loop inner (⟨.keyword .eachKw, s⟩ :: (ps ++ (us ++ ts))) h) s' rest ∧
      Completes opened rest := by
  intro h
  have hplace := reference_complete hr (endsAt_body hbody ts)
  obtain ⟨d', rest, hgives, hrest⟩ := loopBody_complete hi hbody hts
    (Nat.lt_trans hplace.length_lt (Nat.lt_of_succ_lt h))
  refine ⟨.each (.reference r) d', rest, ?_, hrest⟩
  obtain ⟨_, _, _, _, rfl, rfl, -⟩ := hr.exists_path
  exact hplace.bind fun _ => hgives.bind fun _ => gives_of_eq_ok rfl

end loops

/-- Assignments are read as statements. -/
theorem statement_assign {ps us ts : List Token} {t : Token} {r : Reference} {op : AssignOp}
    {e : Expr} (hr : Place ps r) (hop : t.kind.assignOp? = some op) (he : Boolean us e)
    (hts : EndsAt 1 ts) :
    ∀ h, Gives (statement inner (ps ++ t :: (us ++ ts)) h) (.assign r op e) ts := by
  have hgives := assignment_complete hr hop he hts
  have hend : EndsAt 4 (t :: (us ++ ts)) := by
    rw [endsAt_cons, tightness_of_assignOp? hop]
    exact Nat.zero_lt_succ 3
  obtain ⟨_, _, _, _, rfl, rfl, hpath⟩ := hr.exists_path
  rw [List.cons_append] at hgives ⊢
  intro h
  rw [statement]
  · exact hgives
  · -- a call would have a parenthesis right behind the name
    intro _ _ _ hps _
    exact peek_path_ne_lparen hpath hend (by rw [hps, peek_cons])

/-- Statements are read; whatever is left completes a program. -/
theorem statement_complete (hi : Inner.Complete inner) {us ts : List Token} {s : Stmt}
    (hs : Statement us s) (hts : Completes opened ts) :
    ∀ h, ∃ s' rest, Gives (statement inner (us ++ ts) h) s' rest ∧ Completes opened rest := by
  have hend : EndsAt 1 ts := hts.endsAt Nat.zero_lt_one
  cases hs with
  | branch hc hbody =>
      rw [List.cons_append, List.append_assoc, List.cons_append]
      intro h
      obtain ⟨s', rest, hgives, hrest⟩ := branch_complete hi hc hbody (.inl hts) h
      exact ⟨s', rest, hgives.bind fun _ => gives_of_eq_ok rfl, hrest⟩
  | branchElse hc hbody hnl helse =>
      rw [List.cons_append, List.append_assoc, List.cons_append, List.append_assoc,
        List.append_assoc, List.cons_append]
      intro h
      obtain ⟨s', rest, hgives, hrest⟩ := branch_complete hi hc hbody
        (.inr ⟨rfl, _, _, _, _, _, hnl, helse, hts, rfl⟩) h
      exact ⟨s', rest, hgives.bind fun _ => gives_of_eq_ok rfl, hrest⟩
  | count hc hbody =>
      rw [List.cons_append, List.cons_append, List.append_assoc, List.cons_append]
      intro h
      obtain ⟨s', rest, hgives, hrest⟩ := loop_count hi hc hbody hts h
      exact ⟨s', rest, hgives.bind fun _ => gives_of_eq_ok rfl, hrest⟩
  | eachItem hitems hbody =>
      rw [List.cons_append, List.cons_append, List.cons_append, List.append_assoc, List.cons_append]
      intro h
      obtain ⟨s', rest, hgives, hrest⟩ := loop_eachItem hi hitems hbody hts h
      exact ⟨s', rest, hgives.bind fun _ => gives_of_eq_ok rfl, hrest⟩
  | eachOf hr hbody =>
      rw [List.cons_append, List.cons_append, List.append_assoc]
      intro h
      obtain ⟨s', rest, hgives, hrest⟩ := loop_eachOf hi hr hbody hts h
      exact ⟨s', rest, hgives.bind fun _ => gives_of_eq_ok rfl, hrest⟩
  | assign hr hop he =>
      rw [List.append_assoc, List.cons_append]
      intro h
      exact ⟨_, ts, statement_assign hr hop he hend h, hts⟩
  | @call us f args hc =>
      intro h
      have hgives := call_complete hc ts
      refine ⟨.call f args, ts, ?_, hts⟩
      cases hc with
      | mk hargs => exact hgives.bind fun _ => gives_of_eq_ok rfl

/-! ## The knot -/

/-- Statements are read; whatever is left completes a program. -/
theorem readStatement_complete {opened : List Bool} {us ts : List Token} {s : Stmt} (hs : Statement us s)
    (hts : Completes opened ts) :
    ∃ s' rest, Gives (readStatement (us ++ ts)) s' rest ∧ Completes opened rest := by
  rw [readStatement]
  refine statement_complete (fun vs s' opened' ws hs' hws hlt => ?_) hs hts _
  exact readStatement_complete hs' hws
termination_by (us ++ ts).length
decreasing_by exact hlt

/-! ## Programs -/

/-- The tokens are those of a program: behind separators they end, or there is a statement and what
follows completes a program. -/
def Ready (ts : List Token) : Prop :=
  (Token.peek (Token.skipSeparators ts)).kind = .eof ∨
    ∃ us s vs, Token.skipSeparators ts = us ++ vs ∧ Statement us s ∧ Completes [] vs

/-- Nothing is skipped at the end of the input. -/
theorem skipSeparators_of_eof {ts : List Token} (h : (Token.peek ts).kind = .eof) :
    Token.skipSeparators ts = ts := by
  rcases ts with _ | ⟨t, ts⟩
  · rfl
  · rw [peek_cons] at h
    exact skipSeparators_cons (by rw [h]; rfl) ts

/-- Separators may be followed by the end. -/
theorem ready_of_eof {seps rest : List Token} (hseps : Separators seps)
    (hrest : (Token.peek rest).kind = .eof) : Ready (seps ++ rest) := by
  refine .inl ?_
  rw [skipSeparators_append hseps, skipSeparators_of_eof hrest, hrest]

/-- Separators may be followed by a statement. -/
theorem ready_of_statement {seps us ts : List Token} {s : Stmt} (hseps : Separators seps)
    (hs : Statement us s) (hts : Completes [] ts) : Ready (seps ++ (us ++ ts)) := by
  obtain ⟨-, -, -, hstarts⟩ := hs.head ts
  refine .inr ⟨us, s, ts, ?_, hs, hts⟩
  rw [skipSeparators_append hseps, (skip_of_startsStatement hstarts).2]

/-- What completes a program, when no body is open, is again a program, and a statement may end in
front of it. -/
theorem ready_of_completes {ts : List Token} (hts : Completes [] ts) :
    Ready ts ∧ (Token.peek ts).kind.endsStatement = true := by
  cases hts with
  | @finish seps rest hseps hrest =>
      refine ⟨ready_of_eof hseps hrest, ?_⟩
      rcases seps with _ | ⟨t, seps⟩
      · rw [List.nil_append, hrest]
        rfl
      · exact Bool.or_eq_true_iff.mpr (.inl (hseps t List.mem_cons_self))
  | @separated t seps us ts s ht hseps hs hts =>
      refine ⟨?_, Bool.or_eq_true_iff.mpr (.inl ht)⟩
      have hseps : Separators (t :: seps) := by
        intro u hu
        rcases List.mem_cons.mp hu with rfl | hu
        · exact ht
        · exact hseps u hu
      exact ready_of_statement hseps hs hts

/-- What ends a statement is no reason to complain. -/
theorem statementEnd_of_endsStatement {ts : List Token}
    (h : (Token.peek ts).kind.endsStatement = true) : statementEnd ts = .ok () := by
  unfold statementEnd
  split
  · rename_i hk
    rw [hk] at h
    cases h
  · exact if_pos h

/-- The tokens of a program are read. -/
theorem readProgram_of_ready (ts : List Token) : Ready ts → ∃ p, readProgram ts = .ok p := by
  fun_induction readProgram ts with
  | case1 => exact fun _ => ⟨[], rfl⟩
  | case2 => exact fun _ => ⟨[], rfl⟩
  | case3 ts t rest hne hr _ ih =>
      rintro (heof | ⟨us, s, vs, hskip, hs, hvs⟩)
      · obtain ⟨kind, span⟩ := t
        rw [hr, peek_cons] at heof
        cases heof
        exact absurd rfl (hne span)
      · obtain ⟨s', after, hgives, hafter⟩ := readStatement_complete hs hvs
        rw [← hskip, hr] at hgives
        obtain ⟨hlt, hread⟩ := hgives
        obtain ⟨hready, hend⟩ := ready_of_completes hafter
        obtain ⟨more, hmore⟩ := ih ⟨s', after, hlt⟩ hready
        refine ⟨s' :: more, ?_⟩
        rw [hread]
        show (statementEnd after >>= fun _ => readProgram after >>= fun more => _) = _
        rw [statementEnd_of_endsStatement hend, hmore]
        rfl

/-- Statements behind separators, and the end, complete a program. -/
theorem completes_of_separated {us seps rest : List Token} {more : List Stmt}
    (hmore : Star Separated us more) (hseps : Separators seps)
    (hrest : (Token.peek rest).kind = .eof) : Completes [] (us ++ (seps ++ rest)) := by
  induction hmore with
  | nil =>
      rw [List.nil_append]
      exact .finish hseps hrest
  | cons hs _ ih =>
      cases hs with
      | mk ht hseps' hs =>
          rw [List.append_assoc, List.cons_append, List.append_assoc]
          exact .separated ht hseps' hs ih

/-- Tokens that derive a program are read, whatever stands behind an end of input. -/
theorem readProgram_complete {used rest : List Token} {p : Edict.Program}
    (hp : Derives.Program used p) (hrest : (Token.peek rest).kind = .eof) :
    ∃ p, readProgram (used ++ rest) = .ok p := by
  refine readProgram_of_ready _ ?_
  cases hp with
  | empty hseps => exact ready_of_eof hseps hrest
  | statements hseps hs hmore hseps' =>
      rw [List.append_assoc, List.append_assoc, List.append_assoc]
      exact ready_of_statement hseps hs (completes_of_separated hmore hseps' hrest)

end Grammar

end Edict

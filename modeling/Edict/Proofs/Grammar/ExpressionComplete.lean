import Edict.Proofs.Grammar.ExpressionSound

/-!
# Expressions that are derived are read

The converse of `nested_sound`: tokens that derive an expression are read as that expression,
whatever follows them, as long as nothing that follows goes on with it (`nested_complete`).  So the
readers take neither too few tokens nor too many, and the tree is the one that the grammar fixes.

As before, the readers for brackets are arbitrary, and assumed to be complete.

## Main definitions

* `Grammar.Nested.Complete`: readers for brackets take what is derived.

## Main statements

* `Grammar.expression_complete`, `Grammar.condition_complete` and those for each level below: one
  reader, given complete readers for what stands in brackets.
* `Grammar.nested_complete`: the readers in use are complete.
* `Grammar.readExpression_complete`, `Grammar.readCondition_complete`: in front of any rest that
  does not go on with the expression.
-/

namespace Edict

open Grammar Derives

/-! ## First tokens -/

namespace Derives

/-- A primary has a first token. -/
theorem Primary.head {us : List Token} {e : Expr} (h : Primary us e) :
    ∃ t vs, us = t :: vs ∧ t.kind.startsPrimary = true := by
  cases h with
  | text => exact ⟨_, _, rfl, rfl⟩
  | number => exact ⟨_, _, rfl, rfl⟩
  | bool => exact ⟨_, _, rfl, rfl⟩
  | call h =>
      cases h with
      | mk => exact ⟨_, _, rfl, rfl⟩
  | place h =>
      obtain ⟨_, _, _, _, rfl, -, -⟩ := h.exists_path
      exact ⟨_, _, rfl, rfl⟩
  | object => exact ⟨_, _, rfl, rfl⟩

/-- An arithmetic chain has a first token. -/
theorem Arith.head {us : List Token} {e : Expr} (h : Arith us e) :
    ∃ t vs, us = t :: vs ∧ t.kind.startsPrimary = true := by
  cases h with
  | mk hfirst _ =>
      obtain ⟨t, vs, rfl, ht⟩ := hfirst.head
      exact ⟨t, _, rfl, ht⟩

/-- A term has a first token. -/
theorem Term.head {us : List Token} {e : Expr} (h : Term us e) :
    ∃ t vs, us = t :: vs ∧ t.kind.startsTerm = true := by
  cases h with
  | parens => exact ⟨_, _, rfl, rfl⟩
  | value h =>
      obtain ⟨t, vs, rfl, ht⟩ := h.head
      exact ⟨t, _, rfl, by simp [TokenKind.startsTerm, ht]⟩
  | compare h _ _ =>
      obtain ⟨t, vs, rfl, ht⟩ := h.head
      exact ⟨t, _, rfl, by simp [TokenKind.startsTerm, ht]⟩

/-- A condition has a first token. -/
theorem Boolean.head {us : List Token} {e : Expr} (h : Boolean us e) :
    ∃ t vs, us = t :: vs ∧ t.kind.startsTerm = true := by
  cases h with
  | mk hfirst _ =>
      obtain ⟨t, vs, rfl, ht⟩ := hfirst.head
      exact ⟨t, _, rfl, ht⟩

/-- An entry of an object has a first token. -/
theorem Entry.head {us : List Token} {entry : String × Expr} (h : Entry us entry) :
    ∃ t vs, us = t :: vs ∧ t.kind.isNewline = false := by
  cases h with
  | mk => exact ⟨_, _, rfl, rfl⟩

end Derives

namespace Derives

variable {us : List Token} {e : Expr}

/-- A condition begins with no line break. -/
theorem Boolean.isNewline_head (h : Boolean us e) :
    ∃ t vs, us = t :: vs ∧ t.kind.isNewline = false := by
  obtain ⟨t, vs, hus, ht⟩ := h.head
  exact ⟨t, vs, hus, (not_startsTerm ht).1⟩

/-- A condition begins with no closing parenthesis. -/
theorem Boolean.peek_ne_rparen (h : Boolean us e) (rest : List Token) :
    (Token.peek (us ++ rest)).kind ≠ .symbol .rparen := by
  obtain ⟨t, vs, rfl, ht⟩ := h.head
  exact (not_startsTerm ht).2.1

end Derives

namespace Grammar

variable {limit : Nat}

/-- Tokens that derive an expression are read as it by the readers for brackets. -/
def Nested.Complete (inner : Nested limit) : Prop :=
  ∀ used rest e, Boolean used e → EndsAt 1 rest → ∀ h,
    Gives (inner.expression (used ++ rest) h) e rest ∧ Gives (inner.condition (used ++ rest) h) e rest

variable {inner : Nested limit} {rest : List Token}

/-! ## Primaries -/

/-- Where a path ends, no step is read. -/
theorem steps_of_endsAt {ts : List Token} (h : ts.length ≤ limit) (hts : EndsAt 4 ts) :
    steps inner ts h = .ok (.untouched [] ts) := by
  unfold steps
  split
  · exact absurd hts (Nat.lt_irrefl 4)
  · exact absurd hts (Nat.lt_irrefl 4)
  · exact absurd hts (Nat.lt_irrefl 4)
  · rfl

/-- All steps of a path are read. -/
theorem steps_complete (hi : inner.Complete) {us : List Token} {path : List Step}
    (hpath : Star PathStep us path) (hrest : EndsAt 4 rest) :
    ∀ h, Gives (steps inner (us ++ rest) h) path rest := by
  induction hpath with
  | nil =>
      intro h
      exact gives_of_eq_ok (steps_of_endsAt h hrest)
  | @cons ts us step path hstep _ ih =>
      cases hstep with
      | @field s t name =>
          show ∀ h, Gives (steps inner (⟨.symbol .dot, s⟩ :: ⟨.ident name, t⟩ :: (us ++ rest)) h) _ _
          intro h
          rw [steps]
          exact (ih _).bind fun _ => gives_of_eq_ok rfl
      | @index s t ks key hkey =>
          rw [List.append_assoc, List.cons_append, List.append_assoc, List.singleton_append]
          intro h
          rw [steps]
          have hgives := (hi ks (⟨.symbol .rbracket, t⟩ :: (us ++ rest)) _ hkey Nat.zero_lt_one h).1
          refine hgives.bind fun _ => ?_
          refine (gives_sign _ _ _).bind fun _ => ?_
          exact (ih _).bind fun _ => gives_of_eq_ok rfl

section arguments

variable {ts : List Token} {h : ts.length < limit} {arg : Expr} {after : List Token}

/-- An argument and a comma are followed by the further arguments. -/
theorem arguments_comma {s : Span} {args : List Expr} {next : List Token}
    (hts : (Token.peek ts).kind ≠ .symbol .rparen) (harg : Gives (inner.expression ts h) arg after)
    (hafter : Token.skipNewlines after = ⟨.symbol .comma, s⟩ :: next)
    (hmore : ∀ h, Gives (arguments inner (Token.skipNewlines next) h) args rest) :
    Gives (arguments inner ts h) (arg :: args) rest := by
  rw [arguments]
  · refine harg.bind fun hlt => ?_
    dsimp only
    split
    · rename_i hr
      rw [hafter] at hr
      cases hr
      exact (hmore _).bind fun _ => gives_of_eq_ok rfl
    · rename_i hr
      rw [hafter] at hr
      cases hr
    · rename_i hne _
      exact absurd hafter (hne _ _)
  · rintro _ _ _ rfl _
    exact hts rfl

/-- The last argument is followed by the closing parenthesis. -/
theorem arguments_rparen {s : Span} (hts : (Token.peek ts).kind ≠ .symbol .rparen)
    (harg : Gives (inner.expression ts h) arg after)
    (hafter : Token.skipNewlines after = ⟨.symbol .rparen, s⟩ :: rest) :
    Gives (arguments inner ts h) [arg] rest := by
  rw [arguments]
  · refine harg.bind fun hlt => ?_
    dsimp only
    split
    · rename_i hr
      rw [hafter] at hr
      cases hr
    · rename_i hr
      rw [hafter] at hr
      cases hr
      exact gives_of_eq_ok rfl
    · rename_i hne
      exact absurd hafter (hne _ _)
  · rintro _ _ _ rfl _
    exact hts rfl

end arguments

/-- Arguments are read up to the closing parenthesis. -/
theorem arguments_of_items (hi : inner.Complete) {ts tail : List Token} {args : List Expr}
    (hitems : Items Boolean ts args) (htail : Closing .rparen rest true tail) :
    ∀ h, Gives (arguments inner (ts ++ tail) h) args rest := by
  induction hitems with
  | @last ts nl arg harg hnl =>
      rw [List.append_assoc]
      intro h
      have hend : EndsAt 1 (nl ++ tail) := hnl.endsAt Nat.zero_lt_one (htail.endsAt Nat.zero_lt_one rfl)
      have hgives := (hi ts (nl ++ tail) arg harg hend h).1
      have hskip : Token.skipNewlines (nl ++ tail) = Token.skipNewlines tail :=
        skipNewlines_append hnl tail
      cases htail with
      | bracket => exact arguments_rparen (harg.peek_ne_rparen _) hgives hskip
      | comma hnl' =>
          refine arguments_comma (harg.peek_ne_rparen _) hgives hskip ?_
          rw [skipNewlines_append hnl', skipNewlines_cons rfl]
          intro h
          rw [arguments]
          exact gives_of_eq_ok rfl
  | @more ts nl nl' us s arg args harg hnl hnl' hitems ih =>
      rw [List.append_assoc, List.append_assoc, List.cons_append, List.append_assoc]
      intro h
      have hend : EndsAt 1 (nl ++ ⟨.symbol .comma, s⟩ :: (nl' ++ (us ++ tail))) :=
        hnl.endsAt Nat.zero_lt_one Nat.zero_lt_one
      refine arguments_comma (harg.peek_ne_rparen _) (hi ts _ arg harg hend h).1
        (skipNewlines_append hnl _) ?_
      rw [skipNewlines_append hnl', hitems.skipNewlines_eq fun _ _ => Boolean.isNewline_head]
      exact ih

/-- The arguments of a call are read with the closing parenthesis. -/
theorem arguments_complete (hi : inner.Complete) {us : List Token} {args : List Expr}
    (hargs : Delimited true Boolean us args) (s : Span) :
    ∀ h, Gives (arguments inner (Token.skipNewlines (us ++ ⟨.symbol .rparen, s⟩ :: rest)) h)
      args rest := by
  obtain ⟨nl, vs, hnl, hvs, h⟩ := hargs.exists_closing .rparen s rest
  rw [hvs, skipNewlines_append hnl]
  rcases h with ⟨rfl, rfl⟩ | ⟨ts, tail, hitems, rfl, htail⟩
  · rw [skipNewlines_cons rfl]
    intro h
    rw [arguments]
    exact gives_of_eq_ok rfl
  · rw [hitems.skipNewlines_eq fun _ _ => Boolean.isNewline_head]
    exact arguments_of_items hi hitems htail

section entries

variable {name : String} {s t : Span} {ts : List Token} {e : Expr} {after : List Token}

/-- An entry and a comma are followed by the further entries. -/
theorem entries_comma {u : Span} {more : List (String × Expr)} {next : List Token}
    (hvalue : ∀ h, Gives (inner.expression ts h) e after)
    (hafter : Token.skipNewlines after = ⟨.symbol .comma, u⟩ :: next)
    (hmore : ∀ h, Gives (entries inner (Token.skipNewlines next) h) more rest) (h) :
    Gives (entries inner (⟨.text name, s⟩ :: ⟨.symbol .colon, t⟩ :: ts) h) ((name, e) :: more)
      rest := by
  rw [entries]
  refine (gives_sign .colon t ts).bind fun _ => (hvalue _).bind fun _ => ?_
  dsimp only
  split
  · rename_i hr
    rw [hafter] at hr
    cases hr
    exact (hmore _).bind fun _ => gives_of_eq_ok rfl
  · rename_i hr
    rw [hafter] at hr
    cases hr
  · rename_i hne _
    exact absurd hafter (hne _ _)

/-- The last entry is followed by the closing brace. -/
theorem entries_rbrace {u : Span} (hvalue : ∀ h, Gives (inner.expression ts h) e after)
    (hafter : Token.skipNewlines after = ⟨.symbol .rbrace, u⟩ :: rest) (h) :
    Gives (entries inner (⟨.text name, s⟩ :: ⟨.symbol .colon, t⟩ :: ts) h) [(name, e)] rest := by
  rw [entries]
  refine (gives_sign .colon t ts).bind fun _ => (hvalue _).bind fun _ => ?_
  dsimp only
  split
  · rename_i hr
    rw [hafter] at hr
    cases hr
  · rename_i hr
    rw [hafter] at hr
    cases hr
    exact gives_of_eq_ok rfl
  · rename_i hne
    exact absurd hafter (hne _ _)

end entries

/-- Entries are read up to the closing brace. -/
theorem entries_of_items (hi : inner.Complete) {ts tail : List Token} {es : List (String × Expr)}
    (hitems : Items Entry ts es) (htail : Closing .rbrace rest true tail) :
    ∀ h, Gives (entries inner (ts ++ tail) h) es rest := by
  induction hitems with
  | @last ts nl entry hentry hnl =>
      cases hentry with
      | @mk name s t vs e he =>
          have hend : EndsAt 1 (nl ++ tail) :=
            hnl.endsAt Nat.zero_lt_one (htail.endsAt Nat.zero_lt_one rfl)
          have hgives := fun h => (hi vs (nl ++ tail) e he hend h).1
          have hskip : Token.skipNewlines (nl ++ tail) = Token.skipNewlines tail :=
            skipNewlines_append hnl tail
          rw [List.append_assoc]
          cases htail with
          | bracket => exact entries_rbrace hgives hskip
          | comma hnl' =>
              refine entries_comma hgives hskip ?_
              rw [skipNewlines_append hnl', skipNewlines_cons rfl]
              intro h
              rw [entries]
              exact gives_of_eq_ok rfl
  | @more ts nl nl' us c entry es hentry hnl hnl' hitems ih =>
      cases hentry with
      | @mk name s t vs e he =>
          have hend : EndsAt 1 (nl ++ ⟨.symbol .comma, c⟩ :: (nl' ++ (us ++ tail))) :=
            hnl.endsAt Nat.zero_lt_one Nat.zero_lt_one
          rw [List.append_assoc, List.append_assoc, List.cons_append, List.cons_append,
            List.cons_append, List.append_assoc]
          refine entries_comma (fun h => (hi vs _ e he hend h).1) (skipNewlines_append hnl _) ?_
          rw [skipNewlines_append hnl', hitems.skipNewlines_eq fun _ _ => Entry.head]
          exact ih

/-- The entries of an object are read with the closing brace. -/
theorem entries_complete (hi : inner.Complete) {us : List Token} {es : List (String × Expr)}
    (hentries : Delimited true Entry us es) (s : Span) :
    ∀ h, Gives (entries inner (Token.skipNewlines (us ++ ⟨.symbol .rbrace, s⟩ :: rest)) h)
      es rest := by
  obtain ⟨nl, vs, hnl, hvs, h⟩ := hentries.exists_closing .rbrace s rest
  rw [hvs, skipNewlines_append hnl]
  rcases h with ⟨rfl, rfl⟩ | ⟨ts, tail, hitems, rfl, htail⟩
  · rw [skipNewlines_cons rfl]
    intro h
    rw [entries]
    exact gives_of_eq_ok rfl
  · rw [hitems.skipNewlines_eq fun _ _ => Entry.head]
    exact entries_of_items hi hitems htail

/-- Behind a path, or right behind its variable, stands no opening parenthesis. -/
theorem peek_path_ne_lparen {us : List Token} {path : List Step} (hpath : Star PathStep us path)
    (hrest : EndsAt 4 rest) : (Token.peek (us ++ rest)).kind ≠ .symbol .lparen := by
  cases hpath with
  | nil =>
      intro h
      rw [List.nil_append] at h
      rw [EndsAt, h] at hrest
      exact absurd hrest (Nat.lt_irrefl 4)
  | cons hstep _ => cases hstep <;> simp

/-- Primaries are read, as long as no step of a path and no parenthesis follows. -/
theorem primary_complete (hi : inner.Complete) {us : List Token} {e : Expr} (he : Primary us e)
    (hrest : EndsAt 4 rest) : ∀ h, Gives (primary inner (us ++ rest) h) e rest := by
  cases he with
  | text =>
      intro h
      exact gives_of_eq_ok rfl
  | number =>
      intro h
      exact gives_of_eq_ok rfl
  | bool =>
      intro h
      exact gives_of_eq_ok rfl
  | call hcall =>
      cases hcall with
      | mk hargs =>
          rw [List.cons_append, List.cons_append, List.append_assoc, List.singleton_append]
          intro h
          rw [primary]
          exact (arguments_complete hi hargs _ _).bind fun _ => gives_of_eq_ok rfl
  | place hplace =>
      obtain ⟨root, s, us, path, rfl, rfl, hpath⟩ := hplace.exists_path
      rw [List.cons_append]
      intro h
      rw [primary]
      · exact (steps_complete hi hpath hrest _).bind fun _ => gives_of_eq_ok rfl
      · intro _ _ _ hus _
        exact absurd (by rw [hus, peek_cons]) (peek_path_ne_lparen hpath hrest)
  | object hentries =>
      rw [List.cons_append, List.append_assoc, List.singleton_append]
      intro h
      rw [primary]
      exact (entries_complete hi hentries _ _).bind fun _ => gives_of_eq_ok rfl

/-! ## Arithmetic chains -/

section chains

variable {us : List Token} {links : List (ArithOp × Expr)}

/-- The links of a chain go on with no primary. -/
theorem endsAt_links (hlinks : Star Link us links) (hrest : EndsAt 4 rest) :
    EndsAt 4 (us ++ rest) := by
  cases hlinks with
  | nil => exact hrest
  | cons hlink _ =>
      cases hlink with
      | op hop _ => exact endsAt_cons.mpr (Nat.lt_succ_of_le (Nat.le_of_eq (tightness_of_arithOp? hop)))
      | negative hx =>
          exact endsAt_cons.mpr (Nat.lt_succ_of_le (Nat.le_of_eq (tightness_of_negative? hx)))

/-- Where a chain ends, no `+` follows. -/
theorem not_atPlus_of_endsAt {ts : List Token} (hts : EndsAt 3 ts) : ¬ AtPlus ts := by
  rintro ⟨s, rest, rfl⟩
  exact absurd hts (Nat.lt_irrefl 3)

/-- A chain begins with `+` exactly if its first link adds. -/
theorem atPlus_iff (hlinks : Star Link us links) (hrest : EndsAt 3 rest) :
    AtPlus (us ++ rest) ↔ ∃ l ∈ links.head?, l.1 = .add := by
  refine ⟨?_, atPlus_of_add hlinks⟩
  rintro ⟨s, vs, hus⟩
  cases hlinks with
  | nil => exact absurd ⟨s, vs, hus⟩ (not_atPlus_of_endsAt hrest)
  | cons hlink _ =>
      cases hlink with
      | op hop _ =>
          cases hus
          cases hop
          exact ⟨_, rfl, rfl⟩
      | negative hx =>
          cases hus
          cases hx

/-- Where no `+` stands in front, a concatenation has no further parts. -/
theorem concatParts_of_not_atPlus {ts : List Token} (h : ts.length ≤ limit) (hts : ¬ AtPlus ts) :
    concatParts inner ts h = .ok (.untouched [] ts) := by
  unfold concatParts
  split
  · exact absurd ⟨_, _, rfl⟩ hts
  · rfl

/-- The additions in front of a chain are the parts of a concatenation. -/
theorem concatParts_complete (hi : inner.Complete) (hlinks : Star Link us links)
    (hrest : EndsAt 3 rest) :
    ∃ vs, Star Link vs (links.dropWhile Expr.adds) ∧
      ∀ h, Gives (concatParts inner (us ++ rest) h) ((links.takeWhile Expr.adds).map Prod.snd)
        (vs ++ rest) := by
  induction hlinks with
  | nil =>
      refine ⟨[], .nil, fun h => ?_⟩
      exact gives_of_eq_ok (concatParts_of_not_atPlus h (not_atPlus_of_endsAt hrest))
  | @cons ts us link links hlink hlinks ih =>
      have hall := Star.cons hlink hlinks
      by_cases hadd : link.1 = .add
      · have hadds : Expr.adds link = true := by simp [Expr.adds, hadd]
        obtain ⟨vs, hvs, hgives⟩ := ih
        cases hlink with
        | @op t ts op e hop he =>
            obtain ⟨kind, span⟩ := t
            obtain rfl : kind = .symbol .plus := kind_of_arithOp?_add (hop.trans (congrArg some hadd))
            rw [List.dropWhile_cons_of_pos hadds, List.takeWhile_cons_of_pos hadds]
            refine ⟨vs, hvs, ?_⟩
            rw [List.cons_append, List.cons_append, List.append_assoc]
            intro h
            rw [concatParts]
            refine (primary_complete hi he (endsAt_links hlinks (hrest.mono (Nat.le_succ 3)))
              _).bind fun _ => ?_
            exact (hgives _).bind fun _ => gives_of_eq_ok rfl
        | negative => cases hadd
      · have hadds : ¬ Expr.adds link = true := by simpa [Expr.adds] using hadd
        rw [List.dropWhile_cons_of_neg hadds, List.takeWhile_cons_of_neg hadds]
        refine ⟨_, hall, fun h => gives_of_eq_ok (concatParts_of_not_atPlus h ?_)⟩
        rw [atPlus_iff hall hrest]
        rintro ⟨l, hl, hl'⟩
        cases hl
        exact hadd hl'

/-- Where a chain ends, its value is what has been folded so far. -/
theorem arithFrom_of_endsAt {ts : List Token} (left : Expr) (h : ts.length ≤ limit)
    (hts : EndsAt 3 ts) : arithFrom inner left ts h = .ok (.untouched left ts) := by
  unfold arithFrom
  split
  · rfl
  · simp only [arithOp?_of_endsAt hts, negative?_of_endsAt hts]

/-- Chains are folded from the left. -/
theorem arithFrom_complete (hi : inner.Complete) (hlinks : Star Link us links)
    (hrest : EndsAt 3 rest) :
    ∀ left h, Gives (arithFrom inner left (us ++ rest) h) (Expr.foldLinks left links) rest := by
  induction hlinks with
  | nil =>
      intro left h
      exact gives_of_eq_ok (arithFrom_of_endsAt left h hrest)
  | @cons ts us link links hlink hlinks ih =>
      cases hlink with
      | @op t ts op e hop he =>
          rw [List.cons_append, List.cons_append, List.append_assoc]
          intro left h
          rw [arithFrom]
          simp only [hop]
          refine (primary_complete hi he (endsAt_links hlinks (hrest.mono (Nat.le_succ 3)))
            _).bind fun _ => ?_
          exact (ih _ _).bind fun _ => gives_of_eq_ok rfl
      | @negative t x hx =>
          rw [List.cons_append, List.cons_append, List.nil_append]
          intro left h
          have hop : t.kind.arithOp? = none := by
            rcases hk : t.kind <;> first | rfl | (rw [hk] at hx; cases hx)
          rw [arithFrom]
          simp only [hop, hx]
          exact (ih _ _).bind fun _ => gives_of_eq_ok rfl

/-- Arithmetic chains are read, as long as nothing that follows goes on with them. -/
theorem arith_complete (hi : inner.Complete) {e : Expr} (he : Arith us e) (hrest : EndsAt 3 rest) :
    ∀ h, Gives (arith inner (us ++ rest) h) e rest := by
  cases he with
  | @mk ts us first links hfirst hlinks =>
      rw [List.append_assoc]
      intro h
      refine (primary_complete hi hfirst (endsAt_links hlinks (hrest.mono (Nat.le_succ 3)))
        h).bind fun _ => ?_
      dsimp only
      split
      · rename_i hconcat
        obtain ⟨htext, hplus⟩ := beginsConcat_iff.mp hconcat
        obtain ⟨l, hl, hadd⟩ := (atPlus_iff hlinks hrest).mp hplus
        have hne : links.takeWhile Expr.adds ≠ [] := by
          rcases links with _ | ⟨l', links⟩
          · cases hl
          · cases hl
            simp [Expr.adds, hadd]
        obtain ⟨vs, hvs, hparts⟩ := concatParts_complete hi hlinks hrest
        rw [Expr.ofLinks, if_pos ⟨htext, hne⟩]
        refine (hparts _).bind fun _ => ?_
        exact (arithFrom_complete hi hvs hrest _ _).bind fun _ => gives_of_eq_ok rfl
      · rename_i hconcat
        rw [Expr.ofLinks_eq_foldLinks]
        · exact (arithFrom_complete hi hlinks hrest _ _).bind fun _ => gives_of_eq_ok rfl
        · intro htext l hl hadd
          exact hconcat (beginsConcat_iff.mpr ⟨htext, (atPlus_iff hlinks hrest).mpr ⟨l, hl, hadd⟩⟩)

end chains

/-! ## Conditions -/

section conditions

variable {us : List Token} {e : Expr}

/-- What begins a primary begins neither a condition in parentheses nor a combinator. -/
theorem not_startsPrimary {k : TokenKind} (h : k.startsPrimary = true) :
    k ≠ .symbol .lparen ∧ ∀ op, k ≠ .combinator op := by
  constructor
  · rintro rfl
    cases h
  · rintro op rfl
    cases h

/-- A term that begins with arithmetic, and with which nothing goes on, is that arithmetic. -/
theorem term_arith {t : Token} {ts : List Token} (ht : t.kind.startsPrimary = true)
    (h : (t :: ts).length ≤ limit) {left : Expr} {after : List Token}
    (harith : Gives (arith inner (t :: ts) h) left after)
    (hend : ∀ c cs, after = c :: cs → c.kind.compareOp? = none) :
    Gives (term inner (t :: ts) h) left after := by
  obtain ⟨hlt, harith⟩ := harith
  obtain ⟨hparen, hop⟩ := not_startsPrimary ht
  refine gives_of_eq_ok (term_of_arith ?_ ?_ harith hend)
  · unfold atParen
    split
    · rename_i hts
      cases hts
      exact absurd rfl hparen
    · rfl
  · rintro op s rest hts
    cases hts
    exact hop op rfl

/-- A term that begins with arithmetic is compared with the arithmetic behind the comparison. -/
theorem term_compare {t : Token} {ts : List Token} (ht : t.kind.startsPrimary = true)
    (h : (t :: ts).length ≤ limit) {left right : Expr} {c : Token} {op : CompareOp}
    {after : List Token} (harith : Gives (arith inner (t :: ts) h) left (c :: after))
    (hop : c.kind.compareOp? = some op) (hright : ∀ h, Gives (arith inner after h) right rest) :
    Gives (term inner (t :: ts) h) (.compare left op right) rest := by
  obtain ⟨hlt, harith⟩ := harith
  obtain ⟨hparen, hcomb⟩ := not_startsPrimary ht
  rw [term]
  · refine (Gives.bind ⟨hlt, harith⟩) fun _ => ?_
    simp only [hop]
    exact (hright _).bind fun _ => gives_of_eq_ok rfl
  · rintro _ _ _ hts _
    cases hts
    exact hparen rfl
  · rintro op' _ _ _ hts _
    cases hts
    exact hcomb op' rfl

/-- Terms are read, as long as no arithmetic and no comparison follows. -/
theorem term_complete (hi : inner.Complete) (he : Term us e) (hrest : EndsAt 2 rest) :
    ∀ h, Gives (term inner (us ++ rest) h) e rest := by
  cases he with
  | @parens s t us e he =>
      rw [List.cons_append, List.append_assoc, List.singleton_append]
      intro h
      rw [term]
      have hgives := (hi us (⟨.symbol .rparen, t⟩ :: rest) e he Nat.zero_lt_one h).2
      refine hgives.bind fun _ => ?_
      exact (gives_sign _ _ _).bind fun _ => gives_of_eq_ok rfl
  | value he =>
      intro h
      have harith := arith_complete hi he (hrest.mono (Nat.le_succ 2)) h
      obtain ⟨t, vs, rfl, ht⟩ := he.head
      refine term_arith ht h harith ?_
      rintro c cs rfl
      exact compareOp?_of_endsAt hrest
  | @compare ls rs c op l r hl hop hr =>
      rw [List.append_assoc, List.cons_append]
      intro h
      have hend : EndsAt 3 (c :: (rs ++ rest)) :=
        endsAt_cons.mpr (Nat.lt_succ_of_le (Nat.le_of_eq (tightness_of_compareOp? hop)))
      have harith := arith_complete hi hl hend h
      obtain ⟨t, vs, rfl, ht⟩ := hl.head
      exact term_compare ht h harith hop (arith_complete hi hr (hrest.mono (Nat.le_succ 2)))

/-- Further terms go on with no term. -/
theorem endsAt_joined {links : List (Combinator × Expr)} (hlinks : Star Joined us links)
    (hrest : EndsAt 1 rest) : EndsAt 2 (us ++ rest) := by
  cases hlinks with
  | nil => exact hrest.mono (Nat.le_succ 1)
  | cons hlink _ =>
      cases hlink with
      | mk => exact Nat.lt_succ_self 1

/-- Where a condition ends, no combinator stands. -/
theorem unlinked_of_endsAt (hrest : EndsAt 1 rest) : Unlinked rest := by
  refine unlinked_iff.mpr ?_
  rintro op s us rfl
  exact absurd hrest (Nat.lt_irrefl 1)

/-- Further terms are found as such. -/
theorem linked_of_joined (hi : inner.Complete) {links : List (Combinator × Expr)}
    (hlinks : Star Joined us links) (hrest : EndsAt 1 rest) (h : (us ++ rest).length ≤ limit) :
    Linked inner.ReadsTerm (us ++ rest) links rest := by
  induction hlinks with
  | nil => exact .nil
  | @cons ts us link links hlink hmore ih =>
      cases hlink with
      | @mk op s ts e he =>
          rw [List.cons_append, List.cons_append, List.append_assoc] at h ⊢
          have hterm := term_complete hi he (endsAt_joined hmore hrest) (Nat.le_of_succ_le h)
          refine .cons ⟨_, hterm⟩ (ih (Nat.le_trans ?_ h))
          simp only [List.length_cons, List.length_append]
          omega

/-- Conditions are read, as long as no combinator and nothing that binds more tightly follows. -/
theorem condition_complete (hi : inner.Complete) (he : Boolean us e) (hrest : EndsAt 1 rest) :
    ∀ h, Gives (condition inner (us ++ rest) h) e rest := by
  cases he with
  | @mk ts us first links hfirst hlinks =>
      rw [List.append_assoc]
      intro h
      have hterm := term_complete hi hfirst (endsAt_joined hlinks hrest) h
      have hlen : (us ++ rest).length ≤ limit := Nat.le_trans (Nat.le_of_lt hterm.length_lt) h
      exact condition_gives_iff.mpr ⟨first, us ++ rest, links, ⟨h, hterm⟩,
        linked_of_joined hi hlinks hrest hlen, unlinked_of_endsAt hrest, rfl⟩

/-! ## Expressions -/

/-- Expressions are read, under the same condition. -/
theorem expression_complete (hi : inner.Complete) (he : Boolean us e) (hrest : EndsAt 1 rest) :
    ∀ h, Gives (expression inner (us ++ rest) h) e rest := by
  intro h
  rw [expression_eq_condition]
  · exact condition_complete hi he hrest h
  · rintro op s vs hus
    obtain ⟨t, ts, rfl, ht⟩ := he.head
    cases hus
    cases ht

end conditions

/-! ## The knot -/

/-- The readers for brackets are complete. -/
theorem nested_complete (limit : Nat) : (nested limit).Complete := by
  induction limit using Nat.strongRecOn with
  | ind limit ih =>
      intro us rest e he hrest h
      rw [nested]
      exact ⟨expression_complete (ih _ h) he hrest _, condition_complete (ih _ h) he hrest _⟩

section read

variable {us : List Token}

/-- Tokens that derive an expression are read as it. -/
theorem readExpression_complete {e : Expr} (he : Boolean us e) (hrest : EndsAt 1 rest) :
    Gives (readExpression (us ++ rest)) e rest :=
  expression_complete (nested_complete _) he hrest _

/-- Tokens that derive a condition are read as it. -/
theorem readCondition_complete {e : Expr} (he : Boolean us e) (hrest : EndsAt 1 rest) :
    Gives (readCondition (us ++ rest)) e rest :=
  condition_complete (nested_complete _) he hrest _

/-- Tokens that derive a path are read as it. -/
theorem readSteps_complete {path : List Step} (hpath : Star PathStep us path)
    (hrest : EndsAt 4 rest) : Gives (readSteps (us ++ rest)) path rest :=
  steps_complete (nested_complete _) hpath hrest _

/-- Tokens that derive arguments are read as them, with the closing parenthesis. -/
theorem readArguments_complete {args : List Expr} (hargs : Delimited true Boolean us args)
    (s : Span) :
    Gives (readArguments (Token.skipNewlines (us ++ ⟨.symbol .rparen, s⟩ :: rest))) args rest :=
  arguments_complete (nested_complete _) hargs s _

end read

end Grammar

end Edict

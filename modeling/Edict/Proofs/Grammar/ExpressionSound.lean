import Edict.Proofs.Grammar.Climbing

/-!
# Expressions that are read are derived

Whatever a reader of expressions returns is derived by exactly the tokens that it used
(`nested_sound`).  Each reader is treated with arbitrary `Nested` readers for what stands in
brackets, which are assumed to be sound; the knot is tied by induction on the length of the list.

On the way, `expression_eq_condition`: although an expression is first read as arithmetic and then,
if a comparison or a combinator follows, once more from its first token, the outcome is that of
reading a condition, except that a combinator in front is reported in other words.

## Main definitions

* `Grammar.Nested.Sound`: readers for brackets return what is derived.
* `Grammar.Continues`: tokens go on with a condition whose first terms have been read.

## Main statements

* `Grammar.expression_eq_condition`, `Grammar.expression_combinator`: the two ways to read an
  expression compared, for every list of tokens.
* `Grammar.nested_sound`: the readers in use are sound.
* `Grammar.readExpression_sound`, `Grammar.readCondition_sound`: on every list of tokens.
-/

namespace Edict

open Grammar Derives

namespace Grammar

variable {limit : Nat}

/-- What the readers for brackets return is derived by the tokens that they used. -/
def Nested.Sound (inner : Nested limit) : Prop :=
  ∀ ts h, Edict.Sound Boolean ts (inner.expression ts h) ∧ Edict.Sound Boolean ts (inner.condition ts h)

variable {inner : Nested limit}

/-! ## Primaries -/

/-- The steps of a path are read soundly. -/
theorem steps_sound (hi : inner.Sound) (ts : List Token) (h : ts.length ≤ limit) :
    Sound (Star PathStep) ts (steps inner ts h) := by
  fun_induction steps inner ts h with
  | case1 s name t rest h _ ih =>
      intro p hp
      obtain ⟨more, hmore, hp⟩ := ok_of_bind hp
      cases hp
      have hname : ReadsOff (One ⟨.ident name, t⟩) _ () rest := .one _ (by simp)
      refine (((ReadsOff.one ⟨.symbol .dot, s⟩ (by simp)).cat hname).cat (ih more hmore)).map ?_
      rintro _ ⟨_, us, ⟨_, _, rfl, rfl, rfl⟩, hus, rfl⟩
      exact .cons .field hus
  | case2 => intro p hp; cases hp
  | case3 s rest h _ ih =>
      intro p hp
      obtain ⟨key, hkey, hp⟩ := ok_of_bind hp
      obtain ⟨close, hclose, hp⟩ := ok_of_bind hp
      obtain ⟨more, hmore, hp⟩ := ok_of_bind hp
      cases hp
      have hkey := ((hi _ _).1 key hkey).cat (sign_sound _ _ close hclose)
      refine (((ReadsOff.one ⟨.symbol .lbracket, s⟩ (by simp)).cat hkey).cat
        (ih key close more hmore)).map ?_
      rintro _ ⟨_, us, ⟨_, _, rfl, ⟨ks, _, hks, ⟨t, rfl⟩, rfl⟩, rfl⟩, hus, rfl⟩
      exact .cons (.index hks) hus
  | case4 ts h =>
      intro p hp
      cases hp
      exact .nothing .nil

/-- The arguments of a call are read soundly. -/
theorem arguments_sound (hi : inner.Sound) (ts : List Token) (h : ts.length < limit) :
    Sound (Closed .rparen (Delimited true Boolean)) ts (arguments inner ts h) := by
  fun_induction arguments inner ts h with
  | case1 s rest h =>
      intro p hp
      cases hp
      refine (ReadsOff.one ⟨.symbol .rparen, s⟩ (by simp)).map ?_
      rintro _ rfl
      exact ⟨[], s, .empty .nil, rfl⟩
  | case2 ts h _ _ ih =>
      intro p hp
      obtain ⟨arg, harg, hp⟩ := ok_of_bind hp
      have harg := ((hi _ _).1 arg harg).cat (.breaks arg.rest)
      split at hp
      · rename_i s rest hr
        obtain ⟨more, hmore, hp⟩ := ok_of_bind hp
        cases hp
        rw [hr] at harg
        have hcomma := (ReadsOff.one ⟨.symbol .comma, s⟩ (by simp)).cat (.breaks rest)
        refine ((harg.cat hcomma).cat (ih arg s rest hr more hmore)).map ?_
        rintro _ ⟨_, _, ⟨_, _, ⟨us, nl, hus, hnl, rfl⟩, ⟨_, nl', rfl, hnl', rfl⟩, rfl⟩,
          ⟨vs, t, hvs, rfl⟩, rfl⟩
        exact ⟨_, t, .cons (s := s) hus hnl hnl' hvs, by simp⟩
      · rename_i s rest hr
        cases hp
        rw [hr] at harg
        refine (harg.cat (.one ⟨.symbol .rparen, s⟩ (by simp))).map ?_
        rintro _ ⟨_, _, ⟨us, nl, hus, hnl, rfl⟩, rfl, rfl⟩
        exact ⟨us ++ nl, s, .of_items (.last hus hnl), rfl⟩
      · cases hp

/-- The entries of an object are read soundly. -/
theorem entries_sound (hi : inner.Sound) (ts : List Token) (h : ts.length < limit) :
    Sound (Closed .rbrace (Delimited true Entry)) ts (entries inner ts h) := by
  fun_induction entries inner ts h with
  | case1 s rest h =>
      intro p hp
      cases hp
      refine (ReadsOff.one ⟨.symbol .rbrace, s⟩ (by simp)).map ?_
      rintro _ rfl
      exact ⟨[], s, .empty .nil, rfl⟩
  | case2 name s rest h _ ih =>
      intro p hp
      obtain ⟨colon, hcolon, hp⟩ := ok_of_bind hp
      obtain ⟨value, hvalue, hp⟩ := ok_of_bind hp
      have hentry : ReadsOff Entry (⟨.text name, s⟩ :: rest) (name, value.value) value.rest := by
        refine (((ReadsOff.one ⟨.text name, s⟩ (by simp)).cat (sign_sound _ _ colon hcolon)).cat
          ((hi _ _).1 value hvalue)).map ?_
        rintro _ ⟨_, us, ⟨_, _, rfl, ⟨t, rfl⟩, rfl⟩, hus, rfl⟩
        exact .mk hus
      have hentry := hentry.cat (.breaks value.rest)
      split at hp
      · rename_i t after hr
        obtain ⟨more, hmore, hp⟩ := ok_of_bind hp
        cases hp
        rw [hr] at hentry
        have hcomma := (ReadsOff.one ⟨.symbol .comma, t⟩ (by simp)).cat (.breaks after)
        refine ((hentry.cat hcomma).cat (ih colon value t after hr more hmore)).map ?_
        rintro _ ⟨_, _, ⟨_, _, ⟨us, nl, hus, hnl, rfl⟩, ⟨_, nl', rfl, hnl', rfl⟩, rfl⟩,
          ⟨vs, u, hvs, rfl⟩, rfl⟩
        exact ⟨_, u, .cons (s := t) hus hnl hnl' hvs, by simp⟩
      · rename_i t after hr
        cases hp
        rw [hr] at hentry
        refine (hentry.cat (.one ⟨.symbol .rbrace, t⟩ (by simp))).map ?_
        rintro _ ⟨_, _, ⟨us, nl, hus, hnl, rfl⟩, rfl, rfl⟩
        exact ⟨us ++ nl, t, .of_items (.last hus hnl), rfl⟩
      · cases hp
  | case3 => intro p hp; cases hp

/-- The opening bracket of a call or an object, with the line breaks behind it, in front of what is
read up to the closing bracket. -/
theorem ReadsOff.bracketed {α : Type} {p : List Token → α → Prop} {t : Token} {bracket : Symbol}
    {rest after : List Token} {as : List α} (ht : t.kind ≠ .eof)
    (h : ReadsOff (Closed bracket (Delimited true p)) (Token.skipNewlines rest) as after) :
    ReadsOff (Cat (One t) (Closed bracket (Delimited true p))) (t :: rest) ((), as) after := by
  refine ((ReadsOff.one t ht).cat ((ReadsOff.breaks rest).cat h)).map ?_
  rintro _ ⟨_, _, rfl, ⟨nl, _, hnl, ⟨us, s, hus, rfl⟩, rfl⟩, rfl⟩
  exact ⟨_, _, rfl, ⟨nl ++ us, s, hus.append hnl, (List.append_assoc ..).symm⟩, rfl⟩

/-- Primaries are read soundly. -/
theorem primary_sound (hi : inner.Sound) (ts : List Token) (h : ts.length ≤ limit) :
    Sound Primary ts (primary inner ts h) := by
  intro p hp
  unfold primary at hp
  split at hp
  · cases hp
    refine (ReadsOff.one _ (by simp)).map ?_
    rintro _ rfl
    exact .text
  · cases hp
    refine (ReadsOff.one _ (by simp)).map ?_
    rintro _ rfl
    exact .number
  · cases hp
    refine (ReadsOff.one _ (by simp)).map ?_
    rintro _ rfl
    exact .bool
  · rename_i f s t rest h
    obtain ⟨args, hargs, hp⟩ := ok_of_bind hp
    cases hp
    have hcall := ReadsOff.bracketed (t := ⟨.symbol .lparen, t⟩) (by simp)
      (arguments_sound hi _ _ args hargs)
    refine ((ReadsOff.one ⟨.ident f, s⟩ (by simp)).cat hcall).map ?_
    rintro _ ⟨_, _, rfl, ⟨_, _, rfl, ⟨us, u, hus, rfl⟩, rfl⟩, rfl⟩
    exact .call (.mk hus)
  · rename_i root s rest h _
    obtain ⟨path, hpath, hp⟩ := ok_of_bind hp
    cases hp
    refine ((ReadsOff.one ⟨.ident root, s⟩ (by simp)).cat (steps_sound hi _ _ path hpath)).map ?_
    rintro _ ⟨_, us, rfl, hus, rfl⟩
    exact .place (.mk hus)
  · rename_i s rest h
    obtain ⟨items, hitems, hp⟩ := ok_of_bind hp
    cases hp
    refine (ReadsOff.bracketed (t := ⟨.symbol .lbrace, s⟩) (by simp)
      (entries_sound hi _ _ items hitems)).map ?_
    rintro _ ⟨_, _, rfl, ⟨us, u, hus, rfl⟩, rfl⟩
    exact .object hus
  · cases hp

/-! ## Arithmetic chains -/

/-- The list begins with `+`. -/
def AtPlus (ts : List Token) : Prop := ∃ s rest, ts = ⟨.symbol .plus, s⟩ :: rest

/-- A concatenation begins where a text is followed by `+`. -/
theorem beginsConcat_iff {first : Expr} {rest : List Token} :
    beginsConcat first rest = true ↔ first.isText = true ∧ AtPlus rest := by
  unfold beginsConcat AtPlus
  rw [Bool.and_eq_true]
  refine and_congr_right fun _ => ?_
  split
  · simp
  · rename_i h
    simp only [Bool.false_eq_true, false_iff]
    rintro ⟨s, r, rfl⟩
    exact h s r rfl

/-- Only `+` is the sign of an addition. -/
theorem kind_of_arithOp?_add {k : TokenKind} (h : k.arithOp? = some .add) : k = .symbol .plus := by
  unfold TokenKind.arithOp? at h
  split at h <;> first | rfl | cases h

/-- The first link of a chain adds only if the chain begins with `+`. -/
theorem atPlus_of_add {us rest : List Token} {links : List (ArithOp × Expr)}
    (h : Star Link us links) (hadd : ∃ l ∈ links.head?, l.1 = .add) : AtPlus (us ++ rest) := by
  obtain ⟨l, hl, hadd⟩ := hadd
  cases h with
  | nil => cases hl
  | cons hlink _ =>
      cases hl
      cases hlink with
      | @op t _ _ _ hop _ =>
          obtain ⟨kind, span⟩ := t
          obtain rfl : kind = .symbol .plus :=
            kind_of_arithOp?_add (hop.trans (congrArg some hadd))
          exact ⟨span, _, rfl⟩
      | negative => cases hadd

/-- The parts of a concatenation are read soundly, and no `+` is left in front. -/
theorem concatParts_sound (hi : inner.Sound) (ts : List Token) (h : ts.length ≤ limit) :
    Sound (fun us parts => Star Link us (parts.map ((.add, ·)))) ts (concatParts inner ts h) ∧
      ∀ p, concatParts inner ts h = .ok p → ¬ AtPlus p.rest ∧ (AtPlus ts → p.value ≠ []) := by
  fun_induction concatParts inner ts h with
  | case1 s rest h _ ih =>
      refine ⟨fun p hp => ?_, fun p hp => ?_⟩
      · obtain ⟨part, hpart, hp⟩ := ok_of_bind hp
        obtain ⟨more, hmore, hp⟩ := ok_of_bind hp
        cases hp
        refine (((ReadsOff.one ⟨.symbol .plus, s⟩ (by simp)).cat
          (primary_sound hi _ _ part hpart)).cat ((ih part).1 more hmore)).map ?_
        rintro _ ⟨_, vs, ⟨_, us, rfl, hus, rfl⟩, hvs, rfl⟩
        exact .cons (.op rfl hus) hvs
      · obtain ⟨part, hpart, hp⟩ := ok_of_bind hp
        obtain ⟨more, hmore, hp⟩ := ok_of_bind hp
        cases hp
        exact ⟨((ih part).2 more hmore).1, fun _ => List.cons_ne_nil _ _⟩
  | case2 ts h hne =>
      have hts : ¬ AtPlus ts := by
        rintro ⟨s, rest, rfl⟩
        exact hne s rest h rfl HEq.rfl
      refine ⟨fun p hp => ?_, fun p hp => ?_⟩
      · cases hp
        exact .nothing .nil
      · cases hp
        exact ⟨hts, fun h => absurd h hts⟩

/-- What goes on with an arithmetic chain is read soundly. -/
theorem arithFrom_sound (hi : inner.Sound) (left : Expr) (ts : List Token) (h : ts.length ≤ limit) :
    Sound (fun us e => ∃ links, Star Link us links ∧ e = Expr.foldLinks left links) ts
      (arithFrom inner left ts h) := by
  fun_induction arithFrom inner left ts h with
  | case1 left h =>
      intro p hp
      cases hp
      exact .nothing ⟨[], .nil, rfl⟩
  | case2 left t rest h op hop _ ih =>
      intro p hp
      obtain ⟨right, hright, hp⟩ := ok_of_bind hp
      obtain ⟨chain, hchain, hp⟩ := ok_of_bind hp
      cases hp
      have ht := TokenKind.ne_eof_of_role hop rfl
      refine (((ReadsOff.one t ht).cat (primary_sound hi _ _ right hright)).cat
        (ih right chain hchain)).map ?_
      rintro _ ⟨_, vs, ⟨_, us, rfl, hus, rfl⟩, ⟨links, hlinks, hvalue⟩, rfl⟩
      exact ⟨(op, right.value) :: links, .cons (.op hop hus) hlinks, hvalue⟩
  | case3 left t rest h x hx _ _ ih =>
      intro p hp
      obtain ⟨chain, hchain, hp⟩ := ok_of_bind hp
      cases hp
      have ht := TokenKind.ne_eof_of_role hx rfl
      refine ((ReadsOff.one t ht).cat (ih chain hchain)).map ?_
      rintro _ ⟨_, vs, rfl, ⟨links, hlinks, hvalue⟩, rfl⟩
      exact ⟨_, .cons (.negative hx) hlinks, hvalue⟩
  | case4 left t rest h =>
      intro p hp
      cases hp
      exact .nothing ⟨[], .nil, rfl⟩

/-- Arithmetic chains are read soundly. -/
theorem arith_sound (hi : inner.Sound) (ts : List Token) (h : ts.length ≤ limit) :
    Sound Arith ts (arith inner ts h) := by
  intro p hp
  unfold arith at hp
  obtain ⟨first, hfirst, hp⟩ := ok_of_bind hp
  have hprimary := primary_sound hi _ _ first hfirst
  split at hp
  · rename_i hconcat
    obtain ⟨htext, hplus⟩ := beginsConcat_iff.mp hconcat
    obtain ⟨parts, hparts, hp⟩ := ok_of_bind hp
    obtain ⟨chain, hchain, hp⟩ := ok_of_bind hp
    cases hp
    obtain ⟨hsound, hends⟩ := concatParts_sound hi first.rest (first.le h)
    obtain ⟨hrest, hne⟩ := hends parts hparts
    have hlinks := (arithFrom_sound hi _ _ _ chain hchain).map_of_eq (b := chain.value)
      (G := fun us e => ∃ links, Star Link us links ∧ (∀ l ∈ links.head?, l.1 ≠ .add) ∧
        e = Expr.foldLinks (.concat (first.value :: parts.value)) links) ?_
    · refine ((hprimary.cat (hsound parts hparts)).cat hlinks).map ?_
      rintro _ ⟨_, ws, ⟨us, vs, hus, hvs, rfl⟩, ⟨links, hws, hhead, hvalue⟩, rfl⟩
      have := Arith.mk hus (hvs.append hws)
      rw [Expr.ofLinks_append htext (hne hplus) hhead, ← hvalue] at this
      simpa using this
    · rintro us ⟨links, hus, hvalue⟩ hts
      refine ⟨links, hus, fun l hl hadd => hrest ?_, hvalue⟩
      rw [hts]
      exact atPlus_of_add hus ⟨l, hl, hadd⟩
  · rename_i hconcat
    obtain ⟨chain, hchain, hp⟩ := ok_of_bind hp
    cases hp
    have hlinks := (arithFrom_sound hi _ _ _ chain hchain).map_of_eq (b := chain.value)
      (G := fun us e => ∃ links, Star Link us links ∧ e = Expr.ofLinks first.value links) ?_
    · refine (hprimary.cat hlinks).map ?_
      rintro _ ⟨us, vs, hus, ⟨links, hvs, hvalue⟩, rfl⟩
      have := Arith.mk hus hvs
      rwa [← hvalue] at this
    · rintro us ⟨links, hus, hvalue⟩ hts
      refine ⟨links, hus, ?_⟩
      rw [Expr.ofLinks_eq_foldLinks, hvalue]
      intro htext l hl hadd
      refine hconcat (beginsConcat_iff.mpr ⟨htext, ?_⟩)
      rw [hts]
      exact atPlus_of_add hus ⟨l, hl, hadd⟩

/-! ## Conditions -/

/-- Terms are read soundly. -/
theorem term_sound (hi : inner.Sound) (ts : List Token) (h : ts.length ≤ limit) :
    Sound Term ts (term inner ts h) := by
  intro p hp
  unfold term at hp
  split at hp
  · rename_i s rest h
    obtain ⟨body, hbody, hp⟩ := ok_of_bind hp
    obtain ⟨close, hclose, hp⟩ := ok_of_bind hp
    cases hp
    have hbody := ((hi _ _).2 body hbody).cat (sign_sound _ _ close hclose)
    refine ((ReadsOff.one ⟨.symbol .lparen, s⟩ (by simp)).cat hbody).map ?_
    rintro _ ⟨_, _, rfl, ⟨us, _, hus, ⟨t, rfl⟩, rfl⟩, rfl⟩
    exact .parens hus
  · cases hp
  · obtain ⟨left, hleft, hp⟩ := ok_of_bind hp
    have harith := arith_sound hi _ _ left hleft
    split at hp
    · cases hp
      exact harith.map fun _ => .value
    · rename_i t rest hr
      split at hp
      · cases hp
        exact harith.map fun _ => .value
      · rename_i op hop
        obtain ⟨right, hright, hp⟩ := ok_of_bind hp
        cases hp
        have ht := TokenKind.ne_eof_of_role hop rfl
        rw [hr] at harith
        refine (harith.cat ((ReadsOff.one t ht).cat (arith_sound hi _ _ right hright))).map ?_
        rintro _ ⟨us, _, hus, ⟨_, vs, rfl, hvs, rfl⟩, rfl⟩
        exact .compare hus hop hvs

/-- Tokens that go on with `left` by terms that bind at least as tightly as `level`. -/
def Continues (level : Nat) (left : Expr) (us : List Token) (e : Expr) : Prop :=
  ∃ links, Star Joined us links ∧ (∀ l ∈ links, level ≤ l.1.precedence) ∧
    e = Expr.joinFrom none left links

/-- Nothing follows. -/
theorem Continues.nil (level : Nat) (left : Expr) : Continues level left [] left :=
  ⟨[], .nil, by simp, rfl⟩

/-- Links are read soundly. -/
theorem readsOff_of_linked (hi : inner.Sound) {ts rest : List Token}
    {links : List (Combinator × Expr)} (h : Linked inner.ReadsTerm ts links rest) :
    ReadsOff (Star Joined) ts links rest := by
  induction h with
  | nil => exact .nothing .nil
  | @cons op s ts mid rest e links hterm _ ih =>
      obtain ⟨_, hmid, hterm⟩ := hterm
      have hoperand := (term_sound hi _ _ _ hterm).cat ih
      refine ((ReadsOff.one ⟨.combinator op, s⟩ (by simp)).cat hoperand).map ?_
      rintro _ ⟨_, _, rfl, ⟨us, vs, hus, hvs, rfl⟩, rfl⟩
      have hlink : Joined (⟨.combinator op, s⟩ :: us) (op, e) := .mk hus
      simpa using Star.cons hlink hvs

/-- What a condition goes on with is read soundly: the links that bind at least as tightly as
`level`, up to the first combinator that does not. -/
theorem joinFrom_sound (hi : inner.Sound) (level : Nat) (left : Expr) (ts : List Token)
    (h : ts.length ≤ limit) :
    Sound (Continues level left) ts (joinFrom inner level left ts h) := by
  intro p hp
  obtain ⟨links, hlinks, hlevel, hvalue⟩ := joinFrom_linked level left ts h p hp
  exact (readsOff_of_linked hi hlinks).map fun _ hus => ⟨links, hus, hlevel, hvalue⟩

/-- Conditions are read soundly. -/
theorem condition_sound (hi : inner.Sound) (ts : List Token) (h : ts.length ≤ limit) :
    Sound Boolean ts (condition inner ts h) := by
  intro p hp
  unfold condition at hp
  obtain ⟨first, hfirst, hp⟩ := ok_of_bind hp
  obtain ⟨whole, hwhole, hp⟩ := ok_of_bind hp
  cases hp
  refine ((term_sound hi _ _ first hfirst).cat
    (joinFrom_sound hi _ _ _ _ whole hwhole)).map ?_
  rintro _ ⟨us, vs, hus, ⟨links, hvs, -, hvalue⟩, rfl⟩
  have := Boolean.mk hus hvs
  rwa [Expr.ofTerms, ← hvalue] at this

/-! ## Expressions -/

section plainTerm

variable {ts : List Token} {h : ts.length ≤ limit}

/-- A term that begins with neither a parenthesis nor a combinator is the arithmetic in front, if no
comparison follows. -/
theorem term_of_arith {value : Parsed Token Expr ts.length} (hparen : atParen ts = false)
    (hop : ∀ op s rest, ts ≠ ⟨.combinator op, s⟩ :: rest) (harith : arith inner ts h = .ok value)
    (hend : ∀ t rest, value.rest = t :: rest → t.kind.compareOp? = none) :
    term inner ts h = .ok value := by
  unfold term
  split
  · cases hparen
  · exact absurd rfl (hop _ _ _)
  · rw [harith]
    refine (pure_bind value _).trans ?_
    split
    · rfl
    · rename_i t rest hr
      rw [hend t rest hr]
      rfl

/-- A term that begins with neither fails where its arithmetic does. -/
theorem term_of_arith_error {f : Failure} (hparen : atParen ts = false)
    (hop : ∀ op s rest, ts ≠ ⟨.combinator op, s⟩ :: rest) (harith : arith inner ts h = .error f) :
    term inner ts h = .error f := by
  unfold term
  split
  · cases hparen
  · exact absurd rfl (hop _ _ _)
  · rw [harith]
    rfl

end plainTerm

/-- Where neither a comparison nor a combinator follows, a condition goes on with nothing. -/
theorem joinFrom_of_not_atJoin (inner : Nested limit) (level : Nat) (left : Expr) (ts : List Token)
    (h : ts.length ≤ limit) (hjoin : atJoin ts = false) :
    joinFrom inner level left ts h = .ok (.untouched left ts) := by
  rw [joinFrom]
  rintro op s rest h' rfl
  simp [atJoin, TokenKind.combinator?] at hjoin

/-- Reading an expression is reading a condition, unless a combinator stands in front. -/
theorem expression_eq_condition (inner : Nested limit) (ts : List Token) (h : ts.length ≤ limit)
    (hop : ∀ op s rest, ts ≠ ⟨.combinator op, s⟩ :: rest) :
    expression inner ts h = condition inner ts h := by
  unfold expression
  split
  · rfl
  · rename_i hparen
    have hparen : atParen ts = false := by simpa using hparen
    rcases harith : arith inner ts h with f | value
    · rw [condition, term_of_arith_error hparen hop harith]
      rfl
    · show (if atJoin value.rest then condition inner ts h else return value) = _
      split
      · rfl
      · rename_i hjoin
        have hjoin : atJoin value.rest = false := by simpa using hjoin
        have hterm : term inner ts h = .ok value := by
          refine term_of_arith hparen hop harith fun t rest hr => ?_
          rw [hr] at hjoin
          simpa [atJoin] using (Bool.or_eq_false_iff.mp hjoin).1
        rw [condition, hterm]
        show _ = (joinFrom inner 1 value.value value.rest _ >>= _)
        rw [joinFrom_of_not_atJoin inner 1 _ _ _ hjoin]
        rfl

/-- A combinator in front begins no expression. -/
theorem expression_combinator (inner : Nested limit) (op : Combinator) (s : Span)
    (rest : List Token) (h : (⟨.combinator op, s⟩ :: rest : List Token).length ≤ limit) :
    expression inner (⟨.combinator op, s⟩ :: rest) h =
      .error (.expecting .value (⟨.combinator op, s⟩ :: rest)) := by
  have hprimary : primary inner (⟨.combinator op, s⟩ :: rest) h =
      .error (.expecting .value (⟨.combinator op, s⟩ :: rest)) := by
    rw [primary] <;> simp
  rw [expression, if_neg (by simp [atParen]), arith, hprimary]
  rfl

/-- Expressions are read soundly. -/
theorem expression_sound (hi : inner.Sound) (ts : List Token) (h : ts.length ≤ limit) :
    Sound Boolean ts (expression inner ts h) := by
  intro p hp
  by_cases hop : ∃ op s rest, ts = ⟨.combinator op, s⟩ :: rest
  · obtain ⟨op, s, rest, rfl⟩ := hop
    rw [expression_combinator] at hp
    cases hp
  · rw [expression_eq_condition inner ts h fun op s rest hts => hop ⟨op, s, rest, hts⟩] at hp
    exact condition_sound hi ts h p hp

/-! ## The knot -/

/-- The readers for brackets are sound. -/
theorem nested_sound (limit : Nat) : (nested limit).Sound := by
  induction limit using Nat.strongRecOn with
  | ind limit ih =>
      intro ts h
      rw [nested]
      exact ⟨expression_sound (ih _ h) ts _, condition_sound (ih _ h) ts _⟩

/-- Expressions are derived by what they are read from. -/
theorem readExpression_sound (ts : List Token) : Sound Boolean ts (readExpression ts) :=
  expression_sound (nested_sound _) ts _

/-- Conditions are derived by what they are read from. -/
theorem readCondition_sound (ts : List Token) : Sound Boolean ts (readCondition ts) :=
  condition_sound (nested_sound _) ts _

/-- Paths are derived by what they are read from. -/
theorem readSteps_sound (ts : List Token) : Sound (Star PathStep) ts (readSteps ts) :=
  steps_sound (nested_sound _) ts _

/-- Arguments are derived by what they are read from. -/
theorem readArguments_sound (ts : List Token) :
    Sound (Closed .rparen (Delimited true Boolean)) ts (readArguments ts) :=
  arguments_sound (nested_sound _) ts _

end Grammar

end Edict

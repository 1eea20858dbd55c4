import Edict.Proofs.Grammar.ExpressionSound

/-!
# Mistakes in expressions are found at once

A reader that fails does so at the first token that is wrong: the tokens in front of that token are
the beginning of something that the grammar derives (`Prompt`).  What has been read before the
mistake is known from soundness; what is missing behind it is completed by any tokens that the
grammar allows there.

Each reader is treated with arbitrary `Nested` readers for what stands in brackets that are sound
and prompt themselves; the knot is tied by induction on the length of the list.

## Main definitions

* `Begins`, `BeginsOff`: tokens are the beginning of something that is derived, alone or at the
  front of a list.
* `Prompt`: what stands in front of a mistake is such a beginning.

## Main statements

* `Grammar.nested_prompt`: the readers for brackets are prompt.
* `Grammar.readExpression_prompt`, `Grammar.readCondition_prompt`, `Grammar.readSteps_prompt`,
  `Grammar.readArguments_prompt`: so are the readers that statements use, on every list of tokens.
-/

namespace Edict

open Grammar Derives

/-! ## Beginnings -/

section beginnings

variable {α β γ : Type} {n : Nat} {D : List Token → α → Prop} {E : List Token → β → Prop}

/-- The tokens are the beginning of some that the rule derives. -/
def Begins (D : List Token → α → Prop) (us : List Token) : Prop := ∃ more v, D (us ++ more) v

/-- The tokens that `ts` has in front of `rest` are the beginning of some that the rule derives. -/
def BeginsOff (D : List Token → α → Prop) (ts rest : List Token) : Prop :=
  ∃ used, Begins D used ∧ ts = used ++ rest

/-- If reading fails then what stands in front of the mistake can be completed. -/
def Prompt (D : List Token → α → Prop) (ts : List Token) (o : Outcome β n) : Prop :=
  ∀ f, o = .error f → BeginsOff D ts f.rest

/-- There is no mistake in what has been read. -/
theorem Prompt.ok {ts : List Token} {p : Parsed Token β n} : Prompt D ts (.ok p) := by
  intro f hf
  cases hf

/-- What is derived begins itself. -/
theorem Begins.of_derives {us : List Token} {v : α} (h : D us v) : Begins D us :=
  ⟨[], v, by rwa [List.append_nil]⟩

/-- What begins with some tokens begins with the first ones of them. -/
theorem Begins.of_append {us vs : List Token} (h : Begins D (us ++ vs)) : Begins D us := by
  obtain ⟨more, v, h⟩ := h
  exact ⟨vs ++ more, v, by rwa [← List.append_assoc]⟩

/-- Everything begins with nothing. -/
theorem Begins.nil (h : ∃ us v, D us v) : Begins D [] := by
  obtain ⟨us, v, h⟩ := h
  exact ⟨us, v, h⟩

/-- The beginning of what a rule allows behind some tokens, behind these tokens. -/
theorem Begins.behind {us vs : List Token} (h : Begins E vs)
    (hE : ∀ ws b, E ws b → Begins D (us ++ ws)) : Begins D (us ++ vs) := by
  obtain ⟨more, b, hmore⟩ := h
  have hlong := hE _ b hmore
  rw [← List.append_assoc] at hlong
  exact hlong.of_append

namespace BeginsOff

variable {ts mid rest : List Token} {b : β}

/-- Nothing stands in front of the mistake. -/
theorem nothing (h : ∃ us v, D us v) : BeginsOff D ts ts := ⟨[], .nil h, rfl⟩

/-- Only a first token stands in front of the mistake. -/
theorem one {t : Token} (h : ∃ us v, D (t :: us) v) : BeginsOff D (t :: ts) ts := ⟨[t], h, rfl⟩

/-- The same tokens begin what another rule derives. -/
theorem map (h : BeginsOff E ts rest) (hE : ∀ us b, E us b → Begins D us) : BeginsOff D ts rest := by
  obtain ⟨us, hus, hts⟩ := h
  have hbegins : Begins D ([] ++ us) := hus.behind hE
  exact ⟨us, hbegins, hts⟩

/-- The mistake is behind a first token. -/
theorem cons {t : Token} (h : BeginsOff E ts rest) (hE : ∀ us b, E us b → Begins D (t :: us)) :
    BeginsOff D (t :: ts) rest := by
  obtain ⟨us, hus, hts⟩ := h
  have hbegins : Begins D ([t] ++ us) := hus.behind hE
  exact ⟨t :: us, hbegins, congrArg (t :: ·) hts⟩

/-- The mistake is behind a part that is read off the list. -/
theorem behind {F : List Token → γ → Prop} (h : ReadsOff E ts b mid) (k : BeginsOff F mid rest)
    (hEF : ∀ us vs c, E us b → F vs c → Begins D (us ++ vs)) : BeginsOff D ts rest := by
  obtain ⟨us, hus, -, rfl⟩ := h
  obtain ⟨vs, hvs, rfl⟩ := k
  exact ⟨us ++ vs, hvs.behind fun ws c => hEF us ws c hus, (List.append_assoc us vs rest).symm⟩

/-- The mistake is in the first piece. -/
theorem first (h : BeginsOff D ts rest) : BeginsOff (Star D) ts rest :=
  h.map fun us v hus => by
    have hone : Star D (us ++ []) [v] := .cons hus .nil
    exact Begins.of_append (.of_derives hone)

/-- The mistake is behind a first piece. -/
theorem further {v : α} (h : ReadsOff D ts v mid) (k : BeginsOff (Star D) mid rest) :
    BeginsOff (Star D) ts rest :=
  .behind h k fun _ _ _ hus hvs => .of_derives (.cons hus hvs)

end BeginsOff

/-- Whatever is read off a list is a beginning. -/
theorem ReadsOff.begins {ts rest : List Token} {v : α} (h : ReadsOff D ts v rest) :
    BeginsOff D ts rest := by
  obtain ⟨us, hus, -, hts⟩ := h
  exact ⟨us, .of_derives hus, hts⟩

/-- What stands between brackets begins it with the closing bracket. -/
theorem Begins.of_closed {us : List Token} {v : α} (bracket : Symbol) (h : D us v) :
    Begins (Closed bracket D) us :=
  ⟨[⟨.symbol bracket, .nowhere⟩], v, us, .nowhere, h, rfl⟩

/-- A sign that is missing is missed at once. -/
theorem sign_prompt (s : Symbol) (ts : List Token) {f : Failure} (hf : sign s ts = .error f) :
    f.rest = ts := by
  unfold sign at hf
  split at hf
  · split at hf <;> cases hf
    rfl
  · cases hf
    rfl

end beginnings

/-! ## Something of every kind -/

namespace Derives

/-- There are primaries. -/
theorem exists_primary : ∃ us e, Primary us e := ⟨_, _, .bool (s := Span.nowhere) (b := true)⟩

/-- There are arithmetic chains. -/
theorem exists_arith : ∃ us e, Arith us e := by
  obtain ⟨us, e, h⟩ := exists_primary
  exact ⟨_, _, .mk h .nil⟩

/-- There are terms. -/
theorem exists_term : ∃ us e, Term us e := by
  obtain ⟨us, e, h⟩ := exists_arith
  exact ⟨us, e, .value h⟩

/-- There are expressions. -/
theorem exists_boolean : ∃ us e, Boolean us e := by
  obtain ⟨us, e, h⟩ := exists_term
  exact ⟨_, _, .mk h .nil⟩

/-- Brackets may be closed at once. -/
theorem exists_closed {α : Type} (bracket : Symbol) (p : List Token → α → Prop) :
    ∃ us as, Closed bracket (Delimited true p) us as :=
  ⟨_, _, _, Span.nowhere, .empty .nil, rfl⟩

end Derives

/-! ## Brackets -/

section brackets

variable {α : Type} {p : List Token → α → Prop} {bracket : Symbol} {ts mid rest : List Token} {a : α}

/-- The beginning of an item begins what stands up to the closing bracket. -/
theorem BeginsOff.item (h : BeginsOff p ts rest) :
    BeginsOff (Closed bracket (Delimited true p)) ts rest := by
  refine h.map fun us a hus => ?_
  have hitems : Delimited true p (us ++ []) [a] := .of_items (.last hus .nil)
  exact .of_append (.of_closed bracket hitems)

/-- So does an item with line breaks behind it. -/
theorem BeginsOff.behindItem (h : ReadsOff (Cat p Breaks) ts (a, ()) rest) :
    BeginsOff (Closed bracket (Delimited true p)) ts rest := by
  refine h.begins.map ?_
  rintro _ ⟨a, _⟩ ⟨us, nl, hus, hnl, rfl⟩
  exact .of_closed bracket (Delimited.of_items (.last hus hnl))

/-- What goes on behind a comma goes on behind an item and the comma. -/
theorem BeginsOff.behindComma {s : Span}
    (h : ReadsOff (Cat p Breaks) ts (a, ()) (⟨.symbol .comma, s⟩ :: mid))
    (k : BeginsOff (Closed bracket (Delimited true p)) (Token.skipNewlines mid) rest) :
    BeginsOff (Closed bracket (Delimited true p)) ts rest := by
  have hcomma := (ReadsOff.one ⟨.symbol .comma, s⟩ (by simp)).cat (.breaks mid)
  refine .behind (h.cat hcomma) k ?_
  rintro _ _ as ⟨_, _, ⟨us, nl, hus, hnl, rfl⟩, ⟨_, nl', rfl, hnl', rfl⟩, rfl⟩ ⟨vs, t, hvs, rfl⟩
  exact .of_derives ⟨_, t, .cons (s := s) hus hnl hnl' hvs, by simp⟩

/-- What goes on behind an opening bracket goes on behind it and line breaks. -/
theorem BeginsOff.bracketed {t : Token}
    (h : BeginsOff (Closed bracket (Delimited true p)) (Token.skipNewlines mid) rest) :
    BeginsOff (Cat (One t) (Closed bracket (Delimited true p))) (t :: mid) rest := by
  refine .cons (.behind (.breaks mid) h ?_ : BeginsOff (Closed bracket (Delimited true p)) mid rest)
    fun us as hus => .of_derives (v := ((), as)) ⟨_, us, rfl, hus, rfl⟩
  rintro nl _ as hnl ⟨us, s, hus, rfl⟩
  exact .of_derives ⟨nl ++ us, s, hus.append hnl, (List.append_assoc ..).symm⟩

end brackets

namespace Grammar

variable {limit : Nat}

/-- The readers for brackets find mistakes at once. -/
def Nested.Prompt (inner : Nested limit) : Prop :=
  ∀ ts h, Edict.Prompt Boolean ts (inner.expression ts h) ∧
    Edict.Prompt Boolean ts (inner.condition ts h)

variable {inner : Nested limit}

/-! ## Primaries -/

/-- Mistakes in paths are found at once. -/
theorem steps_prompt (hi : inner.Sound) (hm : inner.Prompt) (ts : List Token)
    (h : ts.length ≤ limit) : Prompt (Star PathStep) ts (steps inner ts h) := by
  fun_induction steps inner ts h with
  | case1 s name t rest h _ ih =>
      intro f hf
      rcases error_of_bind hf with hmore | ⟨more, -, hf⟩
      · have hname : ReadsOff (One ⟨.ident name, t⟩) _ () rest := .one _ (by simp)
        refine .further (v := .field name) ?_ (ih f hmore)
        refine ((ReadsOff.one ⟨.symbol .dot, s⟩ (by simp)).cat hname).map ?_
        rintro _ ⟨_, _, rfl, rfl, rfl⟩
        exact .field
      · cases hf
  | case2 s rest h hne =>
      intro f hf
      cases hf
      exact .first (.one ⟨[⟨.ident "", s⟩], _, .field⟩)
  | case3 s rest h _ ih =>
      intro f hf
      have hinside : BeginsOff Boolean rest f.rest →
          BeginsOff (Star PathStep) (⟨.symbol .lbracket, s⟩ :: rest) f.rest := fun hkey =>
        .first (hkey.cons fun us e hus => ⟨[⟨.symbol .rbracket, s⟩], _, .index hus⟩)
      rcases error_of_bind hf with hkey | ⟨key, hkey, hf⟩
      · exact hinside ((hm _ _).1 f hkey)
      · have hkeys := (hi _ _).1 key hkey
        rcases error_of_bind hf with hclose | ⟨close, hclose, hf⟩
        · rw [sign_prompt _ _ hclose] at hinside ⊢
          exact hinside hkeys.begins
        · rcases error_of_bind hf with hmore | ⟨more, -, hf⟩
          · refine .further (v := .index key.value) ?_ (ih key close f hmore)
            refine ((ReadsOff.one ⟨.symbol .lbracket, s⟩ (by simp)).cat
              (hkeys.cat (sign_sound _ _ close hclose))).map ?_
            rintro _ ⟨_, _, rfl, ⟨us, _, hus, ⟨t, rfl⟩, rfl⟩, rfl⟩
            exact .index hus
          · cases hf
  | case4 => exact .ok

/-- Mistakes in arguments are found at once. -/
theorem arguments_prompt (hi : inner.Sound) (hm : inner.Prompt) (ts : List Token)
    (h : ts.length < limit) :
    Prompt (Closed .rparen (Delimited true Boolean)) ts (arguments inner ts h) := by
  fun_induction arguments inner ts h with
  | case1 => exact .ok
  | case2 ts h _ _ ih =>
      intro f hf
      rcases error_of_bind hf with harg | ⟨arg, harg, hf⟩
      · exact ((hm _ _).1 f harg).item
      · have hitem := ((hi _ _).1 arg harg).cat (.breaks arg.rest)
        split at hf
        · rename_i s rest hr
          rw [hr] at hitem
          rcases error_of_bind hf with hmore | ⟨more, -, hf⟩
          · exact .behindComma hitem (ih arg s rest hr f hmore)
          · cases hf
        · cases hf
        · cases hf
          exact .behindItem hitem

/-- Mistakes in entries of objects are found at once. -/
theorem entries_prompt (hi : inner.Sound) (hm : inner.Prompt) (ts : List Token)
    (h : ts.length < limit) :
    Prompt (Closed .rbrace (Delimited true Entry)) ts (entries inner ts h) := by
  fun_induction entries inner ts h with
  | case1 => exact .ok
  | case2 name s rest h _ ih =>
      intro f hf
      rcases error_of_bind hf with hcolon | ⟨colon, hcolon, hf⟩
      · rw [sign_prompt _ _ hcolon]
        obtain ⟨us, e, hus⟩ := exists_boolean
        exact .item (.one ⟨⟨.symbol .colon, s⟩ :: us, _, .mk hus⟩)
      · have hname := (ReadsOff.one ⟨.text name, s⟩ (by simp)).cat (sign_sound _ _ colon hcolon)
        rcases error_of_bind hf with hvalue | ⟨value, hvalue, hf⟩
        · refine .item (.behind hname ((hm _ _).1 f hvalue) ?_)
          rintro _ us e ⟨_, _, rfl, ⟨t, rfl⟩, rfl⟩ hus
          exact .of_derives (.mk hus)
        · have hentry : ReadsOff Entry (⟨.text name, s⟩ :: rest) (name, value.value) value.rest := by
            refine (hname.cat ((hi _ _).1 value hvalue)).map ?_
            rintro _ ⟨_, us, ⟨_, _, rfl, ⟨t, rfl⟩, rfl⟩, hus, rfl⟩
            exact .mk hus
          have hitem := hentry.cat (.breaks value.rest)
          split at hf
          · rename_i t after hr
            rw [hr] at hitem
            rcases error_of_bind hf with hmore | ⟨more, -, hf⟩
            · exact .behindComma hitem (ih colon value t after hr f hmore)
            · cases hf
          · cases hf
          · cases hf
            exact .behindItem hitem
  | case3 ts h =>
      intro f hf
      cases hf
      exact .nothing (exists_closed _ _)

/-- Mistakes in primaries are found at once. -/
theorem primary_prompt (hi : inner.Sound) (hm : inner.Prompt) (ts : List Token)
    (h : ts.length ≤ limit) : Prompt Primary ts (primary inner ts h) := by
  intro f hf
  unfold primary at hf
  split at hf
  · cases hf
  · cases hf
  · cases hf
  · rename_i name s t rest h
    rcases error_of_bind hf with hargs | ⟨args, -, hf⟩
    · refine (arguments_prompt hi hm _ _ f hargs).bracketed.cons ?_
      rintro _ _ ⟨_, _, rfl, ⟨us, u, hus, rfl⟩, rfl⟩
      exact .of_derives (.call (.mk (f := name) (s := s) (t := t) (u := u) hus))
    · cases hf
  · rename_i root s rest h _
    rcases error_of_bind hf with hpath | ⟨path, -, hf⟩
    · exact (steps_prompt hi hm _ _ f hpath).cons fun us path hus => .of_derives (.place (.mk hus))
    · cases hf
  · rename_i s rest h
    rcases error_of_bind hf with hitems | ⟨items, -, hf⟩
    · refine (entries_prompt hi hm _ _ f hitems).bracketed.map ?_
      rintro _ _ ⟨_, _, rfl, ⟨us, u, hus, rfl⟩, rfl⟩
      exact .of_derives (.object hus)
    · cases hf
  · cases hf
    exact .nothing exists_primary

/-! ## Arithmetic chains -/

/-- Mistakes in the parts of a concatenation are found at once. -/
theorem concatParts_prompt (hi : inner.Sound) (hm : inner.Prompt) (ts : List Token)
    (h : ts.length ≤ limit) : Prompt (Star Link) ts (concatParts inner ts h) := by
  fun_induction concatParts inner ts h with
  | case1 s rest h _ ih =>
      intro f hf
      rcases error_of_bind hf with hpart | ⟨part, hpart, hf⟩
      · exact .first ((primary_prompt hi hm _ _ f hpart).cons fun us e hus =>
          .of_derives (.op rfl hus))
      · rcases error_of_bind hf with hmore | ⟨more, -, hf⟩
        · refine .further (v := (.add, part.value)) ?_ (ih part f hmore)
          refine ((ReadsOff.one ⟨.symbol .plus, s⟩ (by simp)).cat
            (primary_sound hi _ _ part hpart)).map ?_
          rintro _ ⟨_, us, rfl, hus, rfl⟩
          exact .op rfl hus
        · cases hf
  | case2 => exact .ok

/-- Mistakes in what goes on with an arithmetic chain are found at once. -/
theorem arithFrom_prompt (hi : inner.Sound) (hm : inner.Prompt) (left : Expr) (ts : List Token)
    (h : ts.length ≤ limit) : Prompt (Star Link) ts (arithFrom inner left ts h) := by
  fun_induction arithFrom inner left ts h with
  | case1 => exact .ok
  | case2 left t rest h op hop _ ih =>
      intro f hf
      rcases error_of_bind hf with hright | ⟨right, hright, hf⟩
      · exact .first ((primary_prompt hi hm _ _ f hright).cons fun us e hus =>
          .of_derives (.op hop hus))
      · rcases error_of_bind hf with hchain | ⟨chain, -, hf⟩
        · refine .further (v := (op, right.value)) ?_ (ih right f hchain)
          refine ((ReadsOff.one t (TokenKind.ne_eof_of_role hop rfl)).cat
            (primary_sound hi _ _ right hright)).map ?_
          rintro _ ⟨_, us, rfl, hus, rfl⟩
          exact .op hop hus
        · cases hf
  | case3 left t rest h x hx _ _ ih =>
      intro f hf
      rcases error_of_bind hf with hchain | ⟨chain, -, hf⟩
      · refine .further (v := (.sub, .lit (.number (-x)))) ?_ (ih f hchain)
        refine (ReadsOff.one t (TokenKind.ne_eof_of_role hx rfl)).map ?_
        rintro _ rfl
        exact .negative hx
      · cases hf
  | case4 => exact .ok

/-- Mistakes in arithmetic chains are found at once. -/
theorem arith_prompt (hi : inner.Sound) (hm : inner.Prompt) (ts : List Token)
    (h : ts.length ≤ limit) : Prompt Arith ts (arith inner ts h) := by
  intro f hf
  unfold arith at hf
  rcases error_of_bind hf with hfirst | ⟨first, hfirst, hf⟩
  · refine (primary_prompt hi hm _ _ f hfirst).map fun us e hus => ?_
    exact .of_append (.of_derives (.mk hus .nil))
  · have hlinks : ∀ {mid rest links}, ReadsOff (Star Link) first.rest links mid →
        BeginsOff (Star Link) mid rest → BeginsOff Arith ts rest := by
      intro mid rest links hparts hchain
      have hprimary := (primary_sound hi _ _ first hfirst).cat hparts
      refine .behind hprimary hchain ?_
      rintro _ ws more ⟨us, vs, hus, hvs, rfl⟩ hws
      have harith := Arith.mk hus (hvs.append hws)
      rw [← List.append_assoc] at harith
      exact .of_derives harith
    split at hf
    · rcases error_of_bind hf with hparts | ⟨parts, hparts, hf⟩
      · exact hlinks (.nothing .nil) (concatParts_prompt hi hm _ _ f hparts)
      · rcases error_of_bind hf with hchain | ⟨chain, -, hf⟩
        · have hsound := (concatParts_sound hi first.rest (first.le h)).1 parts hparts
          exact hlinks (hsound.map fun us => id) (arithFrom_prompt hi hm _ _ _ f hchain)
        · cases hf
    · rcases error_of_bind hf with hchain | ⟨chain, -, hf⟩
      · exact hlinks (.nothing .nil) (arithFrom_prompt hi hm _ _ _ f hchain)
      · cases hf

/-! ## Conditions -/

/-- Mistakes in terms are found at once. -/
theorem term_prompt (hi : inner.Sound) (hm : inner.Prompt) (ts : List Token)
    (h : ts.length ≤ limit) : Prompt Term ts (term inner ts h) := by
  intro f hf
  unfold term at hf
  split at hf
  · rename_i s rest h
    have hinside : BeginsOff Boolean rest f.rest →
        BeginsOff Term (⟨.symbol .lparen, s⟩ :: rest) f.rest := fun hbody =>
      hbody.cons fun us e hus => ⟨[⟨.symbol .rparen, s⟩], _, .parens hus⟩
    rcases error_of_bind hf with hbody | ⟨body, hbody, hf⟩
    · exact hinside ((hm _ _).2 f hbody)
    · rcases error_of_bind hf with hclose | ⟨close, -, hf⟩
      · rw [sign_prompt _ _ hclose] at hinside ⊢
        exact hinside ((hi _ _).2 body hbody).begins
      · cases hf
  · cases hf
    exact .nothing exists_term
  · rcases error_of_bind hf with hleft | ⟨left, hleft, hf⟩
    · exact (arith_prompt hi hm _ _ f hleft).map fun us e hus => .of_derives (.value hus)
    · split at hf
      · cases hf
      · rename_i t rest hr
        split at hf
        · cases hf
        · rename_i op hop
          rcases error_of_bind hf with hright | ⟨right, -, hf⟩
          · have hoperand := arith_sound hi _ _ left hleft
            rw [hr] at hoperand
            have hcompare := hoperand.cat (.one t (TokenKind.ne_eof_of_role hop rfl))
            refine .behind hcompare (arith_prompt hi hm _ _ f hright) ?_
            rintro _ vs e ⟨us, _, hus, rfl, rfl⟩ hvs
            have hterm := Term.compare hus hop hvs
            exact .of_derives (by simpa using hterm)
          · cases hf

/-- Mistakes in what a condition goes on with are found at once; that a combinator has no right
operand is found at the combinator. -/
theorem joinFrom_prompt (hi : inner.Sound) (hm : inner.Prompt) (level : Nat) (left : Expr)
    (ts : List Token) (h : ts.length ≤ limit) :
    Prompt (Star Joined) ts (joinFrom inner level left ts h) := by
  fun_induction joinFrom inner level left ts h with
  | case1 => exact .ok
  | case2 =>
      intro f hf
      cases hf
      exact .nothing ⟨[], [], .nil⟩
  | case3 level left op s rest h hle hend _ ihright ihwhole =>
      intro f hf
      rcases error_of_bind hf with hfirst | ⟨first, hfirst, hf⟩
      · exact .first ((term_prompt hi hm _ _ f hfirst).cons fun us e hus => .of_derives (.mk hus))
      · have hjoined : ReadsOff Joined (⟨.combinator op, s⟩ :: rest) (op, first.value) first.rest := by
          refine ((ReadsOff.one ⟨.combinator op, s⟩ (by simp)).cat
            (term_sound hi _ _ first hfirst)).map ?_
          rintro _ ⟨_, us, rfl, hus, rfl⟩
          exact .mk hus
        rcases error_of_bind hf with hright | ⟨right, hright, hf⟩
        · exact .further hjoined (ihright first f hright)
        · rcases error_of_bind hf with hwhole | ⟨whole, -, hf⟩
          · have hmore := joinFrom_sound hi _ _ _ _ right hright
            refine .further hjoined (.behind hmore (ihwhole first right f hwhole) ?_)
            rintro us vs links ⟨links', hus, -, -⟩ hvs
            exact .of_derives (hus.append hvs)
          · cases hf
  | case4 => exact .ok

/-- Mistakes in conditions are found at once. -/
theorem condition_prompt (hi : inner.Sound) (hm : inner.Prompt) (ts : List Token)
    (h : ts.length ≤ limit) : Prompt Boolean ts (condition inner ts h) := by
  intro f hf
  unfold condition at hf
  rcases error_of_bind hf with hfirst | ⟨first, hfirst, hf⟩
  · refine (term_prompt hi hm _ _ f hfirst).map fun us e hus => ?_
    exact .of_append (.of_derives (.mk hus .nil))
  · rcases error_of_bind hf with hwhole | ⟨whole, -, hf⟩
    · refine .behind (term_sound hi _ _ first hfirst) (joinFrom_prompt hi hm _ _ _ _ f hwhole) ?_
      exact fun us vs links hus hvs => .of_derives (.mk hus hvs)
    · cases hf

/-! ## Expressions -/

/-- Mistakes in expressions are found at once. -/
theorem expression_prompt (hi : inner.Sound) (hm : inner.Prompt) (ts : List Token)
    (h : ts.length ≤ limit) : Prompt Boolean ts (expression inner ts h) := by
  intro f hf
  by_cases hop : ∃ op s rest, ts = ⟨.combinator op, s⟩ :: rest
  · obtain ⟨op, s, rest, rfl⟩ := hop
    rw [expression_combinator] at hf
    cases hf
    exact .nothing exists_boolean
  · rw [expression_eq_condition inner ts h fun op s rest hts => hop ⟨op, s, rest, hts⟩] at hf
    exact condition_prompt hi hm ts h f hf

/-! ## The knot -/

/-- The readers for brackets find mistakes at once. -/
theorem nested_prompt (limit : Nat) : (nested limit).Prompt := by
  induction limit using Nat.strongRecOn with
  | ind limit ih =>
      intro ts h
      rw [nested]
      exact ⟨expression_prompt (nested_sound _) (ih _ h) ts _,
        condition_prompt (nested_sound _) (ih _ h) ts _⟩

/-- Mistakes in an expression are found at once. -/
theorem readExpression_prompt (ts : List Token) : Prompt Boolean ts (readExpression ts) :=
  expression_prompt (nested_sound _) (nested_prompt _) ts _

/-- Mistakes in a condition are found at once. -/
theorem readCondition_prompt (ts : List Token) : Prompt Boolean ts (readCondition ts) :=
  condition_prompt (nested_sound _) (nested_prompt _) ts _

/-- Mistakes in a path are found at once. -/
theorem readSteps_prompt (ts : List Token) : Prompt (Star PathStep) ts (readSteps ts) :=
  steps_prompt (nested_sound _) (nested_prompt _) ts _

/-- Mistakes in arguments are found at once. -/
theorem readArguments_prompt (ts : List Token) :
    Prompt (Closed .rparen (Delimited true Boolean)) ts (readArguments ts) :=
  arguments_prompt (nested_sound _) (nested_prompt _) ts _

end Grammar

end Edict

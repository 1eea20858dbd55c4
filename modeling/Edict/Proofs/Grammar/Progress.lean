import Edict.Cursor
import Edict.Proofs.Grammar.Acceptance

/-!
# Where readers stop

Every reader comes to an end, with a value or with a failure, at a later part of the list that it
was given, and no end of input stands in front of that part (`Within`).  A reader that succeeds has
used a token: this is the bound in `Parsed`, by which the readers are defined.

Said of cursors (`productions_progress`): wherever a production begins, it ends at a cursor that is
not behind the first end of input, and if it succeeds, at a later one.  That an expression is read
from its first token a second time, once a comparison or a combinator is found behind its
arithmetic, does not matter: both times the reader ends behind where it has begun.

## Main definitions

* `Reaches`: a list has a rest with no end of input in front of it.
* `Within`: an outcome leaves such a rest.
* `Cursor.Leads`, `Production.Progresses`: a cursor leads to another one; a production makes
  progress.

## Main statements

* `Grammar.readStatement_within`, `Grammar.readProgram_reaches`: on every list of tokens, with
  success or failure.
* `productions_progress`: every production of the grammar, from every cursor.
-/

namespace Edict

open Grammar

/-! ## Later parts of a list -/

/-- A part of the list from some token on, in front of which there is no end of input. -/
def Reaches (ts rest : List Token) : Prop := ∃ used, (∀ t ∈ used, t.kind ≠ .eof) ∧ ts = used ++ rest

namespace Reaches

variable {ts us mid rest : List Token} {t : Token}

/-- The list itself. -/
theorem refl (ts : List Token) : Reaches ts ts := ⟨[], by simp, rfl⟩

/-- A later part of a later part. -/
theorem trans (h : Reaches ts mid) (k : Reaches mid rest) : Reaches ts rest := by
  obtain ⟨us, hus, rfl⟩ := h
  obtain ⟨vs, hvs, rfl⟩ := k
  refine ⟨us ++ vs, fun t ht => ?_, (List.append_assoc us vs rest).symm⟩
  exact (List.mem_append.mp ht).elim (hus t) (hvs t)

/-- What stands behind a token that is no end of input. -/
theorem tail (t : Token) (rest : List Token) (ht : t.kind ≠ .eof) : Reaches (t :: rest) rest :=
  ⟨[t], by simpa using ht, rfl⟩

/-- What stands behind the first token of a later part. -/
theorem behind (h : Reaches ts (t :: rest)) (ht : t.kind ≠ .eof) : Reaches ts rest :=
  h.trans (tail t rest ht)

/-- What is read off a list stands in front of a later part. -/
theorem of_readsOff {α : Type} {D : List Token → α → Prop} {v : α} (h : ReadsOff D ts v rest) :
    Reaches ts rest := by
  obtain ⟨used, -, hused, hts⟩ := h
  exact ⟨used, hused, hts⟩

/-- What stands behind line breaks. -/
theorem breaks (h : Reaches ts us) : Reaches ts (Token.skipNewlines us) :=
  h.trans (of_readsOff (.breaks us))

end Reaches

section within

variable {α β : Type} {m n : Nat} {ts mid : List Token}

/-- An outcome leaves a later part of the list, be it success or failure. -/
inductive Within (ts : List Token) : Outcome α n → Prop
  | ok {p : Parsed Token α n} : Reaches ts p.rest → Within ts (.ok p)
  | error {f : Failure} : Reaches ts f.rest → Within ts (.error f)

/-- One part after the other. -/
theorem Within.bind {o : Outcome α m} {f : Parsed Token α m → Outcome β n} (h : Within ts o)
    (hf : ∀ p, Reaches ts p.rest → Within ts (f p)) : Within ts (o >>= f) := by
  cases h with
  | ok h => exact hf _ h
  | error h => exact .error h

/-- What leaves a later part of a later part. -/
theorem Within.from {o : Outcome α n} (h : Within mid o) (hmid : Reaches ts mid) : Within ts o := by
  cases h with
  | ok h => exact .ok (hmid.trans h)
  | error h => exact .error (hmid.trans h)

end within

/-- A sign is read or not. -/
theorem sign_within (s : Symbol) (ts : List Token) : Within ts (sign s ts) := by
  unfold sign
  split
  · rename_i t span rest
    split
    · exact .ok (.tail _ rest (by simp))
    · exact .error (.refl _)
  · exact .error (.refl _)

namespace Grammar

/-! ## Expressions -/

section expressions

variable {limit : Nat} {ts : List Token}

/-- The readers for brackets stop at later parts of their lists. -/
def Nested.Within (inner : Nested limit) : Prop :=
  ∀ ts h, Edict.Within ts (inner.expression ts h) ∧ Edict.Within ts (inner.condition ts h)

variable {inner : Nested limit}

/-- Reading the steps of a path. -/
theorem steps_within (hi : inner.Within) (ts : List Token) (h : ts.length ≤ limit) :
    Within ts (steps inner ts h) := by
  fun_induction steps inner ts h with
  | case1 s name t rest h _ ih =>
      have hrest : Reaches (⟨.symbol .dot, s⟩ :: ⟨.ident name, t⟩ :: rest) rest :=
        (Reaches.tail _ _ (by simp)).behind (by simp)
      exact (ih.from hrest).bind fun _ hmore => .ok hmore
  | case2 s rest => exact .error (.tail _ rest (by simp))
  | case3 s rest h _ ih =>
      refine ((hi rest h).1.from (.tail _ rest (by simp))).bind fun key hkey => ?_
      refine ((sign_within _ _).from hkey).bind fun close hclose => ?_
      exact ((ih key close).from hclose).bind fun _ hmore => .ok hmore
  | case4 ts => exact .ok (.refl ts)

/-- Reading arguments. -/
theorem arguments_within (hi : inner.Within) (ts : List Token) (h : ts.length < limit) :
    Within ts (arguments inner ts h) := by
  fun_induction arguments inner ts h with
  | case1 s rest => exact .ok (.tail _ rest (by simp))
  | case2 ts h _ _ ih =>
      refine (hi ts h).1.bind fun arg harg => ?_
      have hbreaks := harg.breaks
      split
      · rename_i s rest hr
        rw [hr] at hbreaks
        have hnext := (hbreaks.behind (by simp)).breaks
        exact ((ih arg s rest hr).from hnext).bind fun _ hmore => .ok hmore
      · rename_i s rest hr
        rw [hr] at hbreaks
        exact .ok (hbreaks.behind (by simp))
      · exact .error hbreaks

/-- Reading the entries of an object. -/
theorem entries_within (hi : inner.Within) (ts : List Token) (h : ts.length < limit) :
    Within ts (entries inner ts h) := by
  fun_induction entries inner ts h with
  | case1 s rest => exact .ok (.tail _ rest (by simp))
  | case2 name s rest h _ ih =>
      refine ((sign_within .colon rest).from (.tail _ rest (by simp))).bind fun colon hcolon => ?_
      refine ((hi _ _).1.from hcolon).bind fun value hvalue => ?_
      have hbreaks := hvalue.breaks
      split
      · rename_i t after hr
        rw [hr] at hbreaks
        have hnext := (hbreaks.behind (by simp)).breaks
        exact ((ih colon value t after hr).from hnext).bind fun _ hmore => .ok hmore
      · rename_i t after hr
        rw [hr] at hbreaks
        exact .ok (hbreaks.behind (by simp))
      · exact .error hbreaks
  | case3 ts => exact .error (.refl ts)

/-- Reading a primary. -/
theorem primary_within (hi : inner.Within) (ts : List Token) (h : ts.length ≤ limit) :
    Within ts (primary inner ts h) := by
  unfold primary
  split
  · exact .ok (.tail _ _ (by simp))
  · exact .ok (.tail _ _ (by simp))
  · exact .ok (.tail _ _ (by simp))
  · rename_i f s t rest h
    have hrest : Reaches (⟨.ident f, s⟩ :: ⟨.symbol .lparen, t⟩ :: rest) rest :=
      (Reaches.tail _ _ (by simp)).behind (by simp)
    exact ((arguments_within hi _ _).from hrest.breaks).bind fun _ hargs => .ok hargs
  · rename_i root s rest h _
    have hrest : Reaches (⟨.ident root, s⟩ :: rest) rest := .tail _ _ (by simp)
    exact ((steps_within hi _ _).from hrest).bind fun _ hpath => .ok hpath
  · rename_i s rest h
    have hrest : Reaches (⟨.symbol .lbrace, s⟩ :: rest) rest := .tail _ _ (by simp)
    exact ((entries_within hi _ _).from hrest.breaks).bind fun _ hitems => .ok hitems
  · exact .error (.refl ts)

/-- Reading the further parts of a concatenation. -/
theorem concatParts_within (hi : inner.Within) (ts : List Token) (h : ts.length ≤ limit) :
    Within ts (concatParts inner ts h) := by
  fun_induction concatParts inner ts h with
  | case1 s rest h _ ih =>
      refine ((primary_within hi rest _).from (.tail _ rest (by simp))).bind fun part hpart => ?_
      exact ((ih part).from hpart).bind fun _ hmore => .ok hmore
  | case2 ts => exact .ok (.refl ts)

/-- Going on with an arithmetic chain. -/
theorem arithFrom_within (hi : inner.Within) (left : Expr) (ts : List Token)
    (h : ts.length ≤ limit) : Within ts (arithFrom inner left ts h) := by
  fun_induction arithFrom inner left ts h with
  | case1 => exact .ok (.refl [])
  | case2 left t rest h op hop _ ih =>
      have hrest := Reaches.tail t rest (TokenKind.ne_eof_of_role hop rfl)
      refine ((primary_within hi rest _).from hrest).bind fun right hright => ?_
      exact ((ih right).from hright).bind fun _ hchain => .ok hchain
  | case3 left t rest h x hx _ _ ih =>
      have hrest := Reaches.tail t rest (TokenKind.ne_eof_of_role hx rfl)
      exact (ih.from hrest).bind fun _ hchain => .ok hchain
  | case4 left t rest => exact .ok (.refl (t :: rest))

/-- Reading an arithmetic chain. -/
theorem arith_within (hi : inner.Within) (ts : List Token) (h : ts.length ≤ limit) :
    Within ts (arith inner ts h) := by
  refine (primary_within hi ts h).bind fun first hfirst => ?_
  split
  · refine ((concatParts_within hi _ _).from hfirst).bind fun parts hparts => ?_
    exact ((arithFrom_within hi _ _ _).from hparts).bind fun _ hchain => .ok hchain
  · exact ((arithFrom_within hi _ _ _).from hfirst).bind fun _ hchain => .ok hchain

/-- Reading a term. -/
theorem term_within (hi : inner.Within) (ts : List Token) (h : ts.length ≤ limit) :
    Within ts (term inner ts h) := by
  unfold term
  split
  · rename_i s rest h
    refine ((hi rest h).2.from (.tail _ rest (by simp))).bind fun body hbody => ?_
    exact ((sign_within _ _).from hbody).bind fun _ hclose => .ok hclose
  · exact .error (.refl _)
  · refine (arith_within hi _ _).bind fun left hleft => ?_
    split
    · exact .ok hleft
    · rename_i t rest hr
      split
      · exact .ok hleft
      · rename_i op hop
        rw [hr] at hleft
        have hrest := hleft.behind (TokenKind.ne_eof_of_role hop rfl)
        exact ((arith_within hi rest _).from hrest).bind fun _ hright => .ok hright

/-- Going on with a condition. -/
theorem joinFrom_within (hi : inner.Within) (level : Nat) (left : Expr) (ts : List Token)
    (h : ts.length ≤ limit) : Within ts (joinFrom inner level left ts h) := by
  fun_induction joinFrom inner level left ts h with
  | case1 => exact .ok (.refl _)
  | case2 => exact .error (.refl _)
  | case3 level left op s rest h _ _ _ ihright ihwhole =>
      refine ((term_within hi rest _).from (.tail _ rest (by simp))).bind fun first hfirst => ?_
      refine ((ihright first).from hfirst).bind fun right hright => ?_
      exact ((ihwhole first right).from hright).bind fun _ hwhole => .ok hwhole
  | case4 => exact .ok (.refl _)

/-- Reading a condition. -/
theorem condition_within (hi : inner.Within) (ts : List Token) (h : ts.length ≤ limit) :
    Within ts (condition inner ts h) := by
  refine (term_within hi ts h).bind fun first hfirst => ?_
  exact ((joinFrom_within hi _ _ _ _).from hfirst).bind fun _ hwhole => .ok hwhole

/-- Reading an expression, be it once or twice. -/
theorem expression_within (hi : inner.Within) (ts : List Token) (h : ts.length ≤ limit) :
    Within ts (expression inner ts h) := by
  unfold expression
  split
  · exact condition_within hi ts h
  · refine (arith_within hi ts h).bind fun value hvalue => ?_
    split
    · exact condition_within hi ts h
    · exact .ok hvalue

/-- The readers for brackets stop at later parts of their lists. -/
theorem nested_within (limit : Nat) : (nested limit).Within := by
  induction limit using Nat.strongRecOn with
  | ind limit ih =>
      intro ts h
      rw [nested]
      exact ⟨expression_within (ih _ h) ts _, condition_within (ih _ h) ts _⟩

end expressions

/-! ## Statements -/

section statements

variable {ts : List Token}

/-- Reading the items of an array. -/
theorem arrayItems_within (ts : List Token) : Within ts (arrayItems ts) := by
  fun_induction arrayItems ts with
  | case1 => exact .error (.refl [])
  | case2 t rest => exact .error (.refl (t :: rest))
  | case3 t rest item hitem s after hr _ ih =>
      have hbreaks := (Reaches.tail t rest (TokenKind.ne_eof_of_role hitem rfl)).breaks
      rw [hr] at hbreaks
      exact (ih.from (hbreaks.behind (by simp)).breaks).bind fun _ hmore => .ok hmore
  | case4 t rest item hitem s after hr =>
      have hbreaks := (Reaches.tail t rest (TokenKind.ne_eof_of_role hitem rfl)).breaks
      rw [hr] at hbreaks
      exact .ok (hbreaks.behind (by simp))
  | case5 t rest item hitem =>
      exact .error (Reaches.tail t rest (TokenKind.ne_eof_of_role hitem rfl)).breaks
  | case6 t rest item hitem =>
      exact .error (Reaches.tail t rest (TokenKind.ne_eof_of_role hitem rfl)).breaks

/-- Reading an array. -/
theorem arrayLiteral_within (ts : List Token) : Within ts (arrayLiteral ts) := by
  refine (sign_within .lbracket ts).bind fun start hstart => ?_
  have hbreaks := hstart.breaks
  split
  · rename_i s rest hr
    rw [hr] at hbreaks
    exact .ok (hbreaks.behind (by simp))
  · exact ((arrayItems_within _).from hbreaks).bind fun _ hitems => .ok hitems

/-- Reading a reference. -/
theorem reference_within (ts : List Token) : Within ts (reference ts) := by
  unfold reference
  split
  · rename_i root s rest
    have hrest : Reaches (⟨.ident root, s⟩ :: rest) rest := .tail _ _ (by simp)
    exact ((steps_within (nested_within _) rest _).from hrest).bind fun _ hpath => .ok hpath
  · exact .error (.refl _)

/-- Reading a call. -/
theorem call_within (ts : List Token) : Within ts (call ts) := by
  unfold call
  split
  · rename_i f s rest
    refine ((sign_within .lparen rest).from (.tail _ rest (by simp))).bind fun start hstart => ?_
    have hargs : Within _ (readArguments (Token.skipNewlines start.rest)) :=
      arguments_within (nested_within _) _ _
    exact (hargs.from hstart.breaks).bind fun _ hargs => .ok hargs
  · exact .error (.refl _)

/-- Reading an assignment. -/
theorem assignment_within (ts : List Token) : Within ts (assignment ts) := by
  refine (reference_within ts).bind fun target htarget => ?_
  split
  · rename_i hr
    rw [hr] at htarget
    exact .error htarget
  · rename_i t rest hr
    rw [hr] at htarget
    split
    · exact .error htarget
    · rename_i op hop
      have hrest := htarget.behind (TokenKind.ne_eof_of_role hop rfl)
      have hvalue := expression_within (nested_within _) rest (Nat.le_refl _)
      exact (hvalue.from hrest).bind fun _ hvalue => .ok hvalue

variable {limit : Nat}

/-- The reader for the statements of bodies stops at later parts of its lists. -/
def Inner.Within (inner : Inner limit) : Prop := ∀ ts h, Edict.Within ts (inner ts h)

variable {inner : Inner limit}

/-- Reading the further statements of a body. -/
theorem bodyFrom_within (hi : Inner.Within inner) (ts : List Token) (h : ts.length ≤ limit) :
    Within ts (bodyFrom inner ts h) := by
  fun_induction bodyFrom inner ts h with
  | case1 s rest h _ _ ih =>
      refine ((hi rest h).from (.tail _ rest (by simp))).bind fun first hfirst => ?_
      exact ((ih first).from hfirst).bind fun _ hmore => .ok hmore
  | case2 s rest => exact .ok (.tail _ rest (by simp))
  | case3 ts => exact .ok (.refl ts)

/-- Reading a body. -/
theorem body_within (hi : Inner.Within inner) (ts : List Token) (h : ts.length < limit) :
    Within ts (body inner ts h) := by
  refine ((hi _ _).from (Reaches.refl ts).breaks).bind fun first hfirst => ?_
  exact ((bodyFrom_within hi _ _).from hfirst).bind fun _ hmore => .ok hmore

/-- Reading a branch. -/
theorem branch_within (hi : Inner.Within inner) (ts : List Token) (h : ts.length < limit) :
    Within ts (branch inner ts h) := by
  refine (condition_within (nested_within _) ts (Nat.le_refl _)).bind fun test htest => ?_
  split
  · rename_i t rest hr
    rw [hr] at htest
    refine ((body_within hi rest _).from (htest.behind (by simp))).bind fun thenBody hthen => ?_
    split
    · rename_i u after he
      have hbreaks := hthen.breaks
      rw [he] at hbreaks
      exact ((body_within hi after _).from (hbreaks.behind (by simp))).bind fun _ helse => .ok helse
    · exact .ok hthen
  · rename_i span rest hr
    rw [hr] at htest
    exact .error htest
  · exact .error htest

/-- Reading a loop. -/
theorem loop_within (hi : Inner.Within inner) (ts : List Token) (h : ts.length < limit) :
    Within ts (loop inner ts h) := by
  unfold loop
  split
  · rename_i s t rest h
    have hrest : Reaches (⟨.keyword .eachKw, s⟩ :: ⟨.symbol .lbracket, t⟩ :: rest)
        (⟨.symbol .lbracket, t⟩ :: rest) := .tail _ _ (by simp)
    refine ((arrayLiteral_within _).from hrest).bind fun items hitems => ?_
    exact ((body_within hi _ _).from hitems).bind fun _ hinside => .ok hinside
  · rename_i s root t rest h
    have hrest : Reaches (⟨.keyword .eachKw, s⟩ :: ⟨.ident root, t⟩ :: rest)
        (⟨.ident root, t⟩ :: rest) := .tail _ _ (by simp)
    refine ((reference_within _).from hrest).bind fun place hplace => ?_
    exact ((body_within hi _ _).from hplace).bind fun _ hinside => .ok hinside
  · exact .error (.tail _ _ (by simp))
  · rename_i s rest h
    have hbound := expression_within (nested_within _) rest (Nat.le_refl _)
    refine (hbound.from (.tail _ rest (by simp))).bind fun bound hbound => ?_
    refine ((sign_within .rparen _).from hbound).bind fun close hclose => ?_
    exact ((body_within hi _ _).from hclose).bind fun _ hinside => .ok hinside
  · exact .error (.refl _)

/-- Reading a statement, given a reader for those of its bodies. -/
theorem statement_within (hi : Inner.Within inner) (ts : List Token) (h : ts.length ≤ limit) :
    Within ts (statement inner ts h) := by
  unfold statement
  split
  · rename_i s rest h
    exact ((branch_within hi rest h).from (.tail _ rest (by simp))).bind fun _ hs => .ok hs
  · rename_i s rest h
    exact ((loop_within hi rest h).from (.tail _ rest (by simp))).bind fun _ hs => .ok hs
  · exact (call_within _).bind fun _ hc => .ok hc
  · exact assignment_within _
  · exact .error (.refl _)

/-- Reading a statement. -/
theorem readStatement_within (ts : List Token) : Within ts (readStatement ts) := by
  rw [readStatement]
  exact statement_within (fun us _ => readStatement_within us) ts _
termination_by ts.length

/-- A statement that may not end where it does is complained of there. -/
theorem rest_of_statementEnd {ts : List Token} {f : Failure} (h : statementEnd ts = .error f) :
    f.rest = ts := by
  unfold statementEnd at h
  split at h
  · cases h
    rfl
  · split at h
    · cases h
    · cases h
      rfl

/-- Reading a program: a mistake is found at a later part of the list. -/
theorem readProgram_reaches (ts : List Token) {f : Failure} (hf : readProgram ts = .error f) :
    Reaches ts f.rest := by
  fun_induction readProgram ts with
  | case1 => cases hf
  | case2 => cases hf
  | case3 ts t rest _ hr _ ih =>
      have hgaps := Reaches.of_readsOff (.gaps ts)
      rw [hr] at hgaps
      have hwithin := readStatement_within (t :: rest)
      rcases error_of_bind hf with hs | ⟨s, hs, hf⟩
      · rw [hs] at hwithin
        cases hwithin with
        | error hrest => exact hgaps.trans hrest
      · rw [hs] at hwithin
        cases hwithin with
        | ok hrest =>
            have hrest := hgaps.trans hrest
            rcases error_of_bind hf with hend | ⟨_, _, hf⟩
            · rw [rest_of_statementEnd hend]
              exact hrest
            · rcases error_of_bind hf with hmore | ⟨_, _, hf⟩
              · exact hrest.trans (ih s hmore)
              · cases hf

end statements

end Grammar

/-! ## Cursors -/

namespace Cursor

/-- The position of the first end of input at the cursor or behind it; behind the last token if
there is none. -/
def limit (c : Cursor) : Nat := c.position + (Token.beforeEof c.rest).length

/-- A cursor in the same list, not in front of the first one and not behind the end of input that
follows it. -/
structure Leads (c d : Cursor) : Prop where
  tokens_eq : d.tokens = c.tokens
  le : c.position ≤ d.position
  le_limit : d.position ≤ c.limit

/-- A later part of what stands at a cursor is what stands at some later cursor. -/
theorem exists_leads {c : Cursor} {rest : List Token} (h : Reaches c.rest rest) :
    ∃ d, c.Leads d ∧ d.rest = rest := by
  obtain ⟨used, hused, hrest⟩ := h
  have hlength : used.length ≤ (Token.beforeEof c.rest).length := by
    have hused : ∀ t ∈ used, (!t.kind.isEof) = true := by
      intro t ht
      rcases hk : t.kind <;> first | rfl | exact absurd hk (hused t ht)
    unfold Token.beforeEof
    rw [hrest, List.takeWhile_append_of_pos hused, List.length_append]
    exact Nat.le_add_right _ _
  refine ⟨⟨c.tokens, c.position + used.length⟩, ⟨rfl, Nat.le_add_right _ _, ?_⟩, ?_⟩
  · exact Nat.add_le_add_left hlength _
  · show c.tokens.drop (c.position + used.length) = rest
    rw [← List.drop_drop]
    show c.rest.drop used.length = rest
    rw [hrest, List.drop_left]

variable {α : Type} {n : Nat}

/-- Reading from the cursor ends: with success at a cursor that it leads to and that is a later one,
or with a failure at a cursor that it leads to. -/
inductive Ends (c : Cursor) : Outcome α n → Prop
  | ok {p : Parsed Token α n} {d : Cursor} :
      c.Leads d → d.rest = p.rest → c.position < d.position → Ends c (.ok p)
  | error {f : Failure} {d : Cursor} : c.Leads d → d.rest = f.rest → Ends c (.error f)

/-- Reading that stops at a later part of the list ends; it uses a token if it succeeds. -/
theorem ends_of_within {c : Cursor} {o : Outcome α n} (h : Within c.rest o)
    (hn : n ≤ c.rest.length) : c.Ends o := by
  cases h with
  | @ok p hrest =>
      obtain ⟨d, hlead, hd⟩ := exists_leads hrest
      refine .ok hlead hd (Nat.lt_of_le_of_ne hlead.le fun heq => ?_)
      -- at its own position a cursor would have all its tokens left
      have hsame : d.rest = c.rest := by
        unfold Cursor.rest
        rw [hlead.tokens_eq, ← heq]
      have hlt := p.lt hn
      rw [← hd, hsame] at hlt
      exact Nat.lt_irrefl _ hlt
  | error hrest =>
      obtain ⟨d, hlead, hd⟩ := exists_leads hrest
      exact .error hlead hd

end Cursor

/-! ## Productions -/

/-- A production of the grammar: it reads something from a list of fewer tokens than some limit. -/
abbrev Production (α : Type) :=
  (limit : Nat) → (ts : List Token) → ts.length < limit → Outcome α ts.length

/-- Wherever the production begins, it ends: with success behind at least one token, or with a
failure, and in no case behind the first end of input. -/
def Production.Progresses {α : Type} (r : Production α) : Prop :=
  ∀ (c : Cursor) (limit : Nat) (h : c.rest.length < limit), c.Ends (r limit c.rest h)

/-- What stops at a later part of every list progresses. -/
theorem Production.Progresses.of_within {α : Type} {r : Production α}
    (h : ∀ limit ts hlt, Within ts (r limit ts hlt)) : r.Progresses :=
  fun c limit hlt => Cursor.ends_of_within (h limit c.rest hlt) (Nat.le_refl _)

/-- Reading ends.  Every list of tokens is read as a program or found to be none, with the mistake
not behind its first end of input; and every production, wherever it begins and in whatever bracket
or body, uses at least one token if it succeeds and never goes beyond the first end of input.

Bodies, branches and loops are those behind their first words, arguments and entries those behind
their opening brackets; together with these words and brackets they are read as statements, calls
and primaries. -/
theorem productions_progress :
    (∀ tokens, (∃ p, readProgram tokens = .ok p) ∨
      ∃ f d, readProgram tokens = .error f ∧ (Cursor.start tokens).Leads d ∧ d.rest = f.rest) ∧
    Production.Progresses (fun _ ts _ => readStatement ts) ∧
    Production.Progresses (fun _ => body fun us _ => readStatement us) ∧
    Production.Progresses (fun _ => branch fun us _ => readStatement us) ∧
    Production.Progresses (fun _ => loop fun us _ => readStatement us) ∧
    Production.Progresses (fun _ ts _ => assignment ts) ∧
    Production.Progresses (fun _ ts _ => reference ts) ∧
    Production.Progresses (fun limit ts h => expression (nested limit) ts (Nat.le_of_lt h)) ∧
    Production.Progresses (fun limit ts h => condition (nested limit) ts (Nat.le_of_lt h)) ∧
    Production.Progresses (fun limit ts h => arith (nested limit) ts (Nat.le_of_lt h)) ∧
    Production.Progresses (fun limit ts h => primary (nested limit) ts (Nat.le_of_lt h)) ∧
    Production.Progresses (fun _ ts _ => arrayLiteral ts) ∧
    Production.Progresses (fun limit => entries (nested limit)) ∧
    Production.Progresses (fun limit => arguments (nested limit)) ∧
    Production.Progresses (fun _ ts _ => call ts) := by
  refine ⟨fun tokens => ?_, ?_, ?_, ?_, ?_, ?_, ?_, ?_, ?_, ?_, ?_, ?_, ?_, ?_, ?_⟩
  · rcases hp : readProgram tokens with f | p
    · have hreaches : Reaches (Cursor.start tokens).rest f.rest := readProgram_reaches tokens hp
      obtain ⟨d, hlead, hd⟩ := Cursor.exists_leads hreaches
      exact .inr ⟨f, d, rfl, hlead, hd⟩
    · exact .inl ⟨p, rfl⟩
  · exact .of_within fun _ ts _ => readStatement_within ts
  · exact .of_within fun _ => body_within fun us _ => readStatement_within us
  · exact .of_within fun _ => branch_within fun us _ => readStatement_within us
  · exact .of_within fun _ => loop_within fun us _ => readStatement_within us
  · exact .of_within fun _ ts _ => assignment_within ts
  · exact .of_within fun _ ts _ => reference_within ts
  · exact .of_within fun _ ts _ => expression_within (nested_within _) ts _
  · exact .of_within fun _ ts _ => condition_within (nested_within _) ts _
  · exact .of_within fun _ ts _ => arith_within (nested_within _) ts _
  · exact .of_within fun _ ts _ => primary_within (nested_within _) ts _
  · exact .of_within fun _ ts _ => arrayLiteral_within ts
  · exact .of_within fun _ => entries_within (nested_within _)
  · exact .of_within fun _ => arguments_within (nested_within _)
  · exact .of_within fun _ ts _ => call_within ts

end Edict

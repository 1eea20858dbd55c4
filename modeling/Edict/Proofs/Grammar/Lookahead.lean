import Edict.Proofs.Grammar.Progress

/-!
# Lists that part

Two lists that begin with the same tokens and part then: what a reader does before it comes to the
last one of the tokens that they share is the same for both.  A reader looks at one token behind the
last one that it uses or complains of, and no further, so it has to leave two shared tokens for this
to be certain.  If it does not, its outcome is *late* (`Fork.Late`), and nothing is said of the
second list.

Statements are an exception: after the body of an `if` any number of line breaks is skipped to look
for an `else`.  Therefore a statement counts as late also if there are only line breaks in front of
the last shared token; nothing but line breaks and `else` is looked at there.

## Main definitions

* `Fork`: the tokens that two lists share, and the two last ones of them.
* `Fork.Late`, `Fork.Shares`: an outcome comes too late, and two outcomes are the same or too late.
* `Fork.View`: what counts as the place where a reader has stopped.

## Main statements

* `Fork.Shares.bind` and its variants: steps of readers put one after the other.
-/

namespace Edict

open Grammar

/-- What stands behind the first token that is no line break. -/
theorem Reaches.of_skipNewlines {t : Token} {ts rest : List Token}
    (h : Token.skipNewlines ts = t :: rest) (ht : t.kind ≠ .eof) :
    Reaches (Token.skipNewlines ts) rest := by
  rw [h]
  exact .tail t rest ht

/-- Another value from what has been read stops where that does. -/
theorem Within.map {α β : Type} {m n : Nat} {ts : List Token} {o : Outcome α m} {f : α → β}
    {hle : m ≤ n} (h : Within ts o) : Within ts (o >>= fun p => .ok (p.map f hle)) :=
  h.bind fun _ hrest => .ok hrest

/-- A sign in front is read. -/
theorem sign_eq_ok (s : Symbol) (a : Span) (rest : List Token) :
    sign s (⟨.symbol s, a⟩ :: rest) = .ok ⟨(), rest, Nat.lt_succ_self _⟩ := by
  simp [sign]

/-- A sign that does not stand in front is expected. -/
theorem sign_eq_error {s : Symbol} {ts : List Token}
    (h : ∀ a rest, ts = ⟨.symbol s, a⟩ :: rest → False) :
    sign s ts = .error (.expecting (.token (.symbol s)) ts) := by
  unfold sign
  split
  · split
    · rename_i hs
      subst hs
      exact (h _ _ rfl).elim
    · rfl
  · rfl

/-- Two ways in which a list may go on. -/
structure Fork where
  first : List Token
  second : List Token

namespace Fork

variable {m : Fork} {ts us : List Token} {t u : Token}

/-! ## Lists with the same first tokens -/

/-- The lists are the same up to where they part. -/
def Common (m : Fork) (ts us : List Token) : Prop :=
  ∃ shared, ts = shared ++ m.first ∧ us = shared ++ m.second

/-- At most one shared token is left in the list. -/
def Ends (m : Fork) (ts : List Token) : Prop := ts.length ≤ m.first.length + 1

/-- One more token in front. -/
theorem Common.cons (t : Token) (h : m.Common ts us) : m.Common (t :: ts) (t :: us) := by
  obtain ⟨shared, rfl, rfl⟩ := h
  exact ⟨t :: shared, rfl, rfl⟩

/-- Two shared tokens are left, or the list ends. -/
theorem Common.uncons (h : m.Common ts us) :
    m.Ends ts ∨ ∃ t u ts' us', ts = t :: u :: ts' ∧ us = t :: u :: us' ∧ m.Common ts' us' := by
  obtain ⟨_ | ⟨t, _ | ⟨u, shared⟩⟩, rfl, rfl⟩ := h
  · exact .inl (Nat.le_succ _)
  · exact .inl (Nat.le_refl _)
  · exact .inr ⟨t, u, _, _, rfl, rfl, shared, rfl, rfl⟩

/-- The first two tokens are shared. -/
theorem Common.of_not_ends (h : m.Common ts us) (hts : ¬ m.Ends ts) :
    ∃ t u ts' us', ts = t :: u :: ts' ∧ us = t :: u :: us' ∧ m.Common ts' us' :=
  h.uncons.resolve_left hts

/-- A later part of a list that ends does so, too. -/
theorem Ends.of_le (h : m.Ends ts) (hle : us.length ≤ ts.length) : m.Ends us :=
  Nat.le_trans hle h

/-- A part that can be reached in a list that ends does so, too. -/
theorem Ends.reaches (h : m.Ends ts) (hus : Reaches ts us) : m.Ends us := by
  obtain ⟨used, -, rfl⟩ := hus
  exact h.of_le (by simp)

/-- What stands behind the first tokens of some kind is the same up to where the lists part, or the
list ends there. -/
theorem Common.dropWhile (h : m.Common ts us) (p : Token → Bool) :
    m.Ends (ts.dropWhile p) ∨ m.Common (ts.dropWhile p) (us.dropWhile p) := by
  obtain ⟨shared, rfl, rfl⟩ := h
  induction shared with
  | nil => exact .inl (Nat.le_trans (List.dropWhile_suffix p).length_le (Nat.le_succ _))
  | cons t shared ih =>
      rcases hp : p t
      · have hkeep : ∀ vs, (t :: vs).dropWhile p = t :: vs :=
          fun vs => List.dropWhile_cons_of_neg (by rw [hp]; decide)
        rw [List.cons_append, List.cons_append, hkeep, hkeep]
        exact .inr ⟨t :: shared, rfl, rfl⟩
      · have hskip : ∀ vs, (t :: vs).dropWhile p = vs.dropWhile p :=
          fun vs => List.dropWhile_cons_of_pos hp
        rwa [List.cons_append, List.cons_append, hskip, hskip]

/-! ## Outcomes -/

/-- From where on the rest of a list is looked at. -/
structure View where
  look : List Token → List Token
  le : ∀ ts, (look ts).length ≤ ts.length

/-- From its first token on, as behind an expression. -/
def View.here : View := ⟨id, fun _ => Nat.le_refl _⟩

/-- From its first token on that is no line break, as behind a statement. -/
def View.behind : View := ⟨Token.skipNewlines, Token.length_skipNewlines_le⟩

section outcomes

variable {α β : Type} {i j i' j' : Nat} {view : View}

/-- The outcome leaves a list that ends. -/
inductive Late (m : Fork) (view : View) : Outcome α i → Prop
  | ok {p : Parsed Token α i} : m.Ends (view.look p.rest) → Late m view (.ok p)
  | error {f : Failure} : m.Ends f.rest → Late m view (.error f)

/-- What is read from a list that ends is late. -/
theorem Ends.late {o : Outcome α i} (h : m.Ends ts) (hts : Within ts o) : m.Late view o := by
  cases hts with
  | @ok p hrest => exact .ok ((h.reaches hrest).of_le (view.le p.rest))
  | error hrest => exact .error (h.reaches hrest)

/-- Another value from what has been read is as late. -/
theorem Late.map {o : Outcome α i} {f : α → β} {hle : i ≤ i'} (h : m.Late view o) :
    m.Late view (o >>= fun p => .ok (p.map f hle)) := by
  cases h with
  | ok hends => exact .ok hends
  | error hends => exact .error hends

/-- The same value or the same problem, with rests that are the same up to where the lists part; or
the first outcome is late. -/
inductive Shares (m : Fork) (view : View) : Outcome α i → Outcome α j → Prop
  | ok {p : Parsed Token α i} {q : Parsed Token α j} : p.value = q.value →
      m.Common p.rest q.rest → Shares m view (.ok p) (.ok q)
  | error {f g : Failure} : f.problem = g.problem → m.Common f.rest g.rest →
      Shares m view (.error f) (.error g)
  | late {o : Outcome α i} {o' : Outcome α j} : m.Late view o → Shares m view o o'

namespace Shares

/-- A value is returned. -/
theorem pure {v : α} {r r' : List Token} {hr : r.length < i} {hr' : r'.length < j}
    (h : m.Common r r') : m.Shares view (.ok ⟨v, r, hr⟩) (.ok ⟨v, r', hr'⟩ : Outcome α j) :=
  .ok rfl h

/-- The same is expected. -/
theorem expecting {what : Expected} {r r' : List Token} (h : m.Common r r') :
    m.Shares view (.error (.expecting what r) : Outcome α i)
      (.error (.expecting what r') : Outcome α j) :=
  .error rfl h

/-- It is enough to look at lists that do not end. -/
theorem of_not_ends {o : Outcome α i} {o' : Outcome α j} (hts : Within ts o)
    (h : ¬ m.Ends ts → m.Shares view o o') : m.Shares view o o' := by
  by_cases hends : m.Ends ts
  · exact .late (hends.late hts)
  · exact h hends

/-- It is enough to look at lists that do not end behind line breaks. -/
theorem skipped {o : Outcome α i} {o' : Outcome α j} (h : m.Common ts us)
    (hts : Within (Token.skipNewlines ts) o)
    (hs : m.Common (Token.skipNewlines ts) (Token.skipNewlines us) →
      ¬ m.Ends (Token.skipNewlines ts) → m.Shares view o o') : m.Shares view o o' :=
  .of_not_ends hts fun hends => hs ((h.dropWhile _).resolve_left hends) hends

/-- One part after an expression; it stops behind where it begins. -/
theorem bind {o : Outcome α i} {o' : Outcome α j} {f : Parsed Token α i → Outcome β i'}
    {g : Parsed Token α j → Outcome β j'} (h : m.Shares .here o o')
    (hf : ∀ p, Within p.rest (f p))
    (hfg : ∀ v r r' hr hr', m.Common r r' → ¬ m.Ends r →
      m.Shares view (f ⟨v, r, hr⟩) (g ⟨v, r', hr'⟩)) :
    m.Shares view (o >>= f) (o' >>= g) := by
  cases h with
  | @ok p q hvalue hrest =>
      obtain ⟨v, r, hr⟩ := p
      obtain ⟨v', r', hr'⟩ := q
      obtain rfl : v = v' := hvalue
      exact .of_not_ends (hf _) (hfg v r r' hr hr' hrest)
  | error hproblem hrest => exact .error hproblem hrest
  | late h =>
      cases h with
      | @ok p hends => exact .late (Ends.late hends (hf p))
      | error hends => exact .late (.error hends)

/-- One part after an expression, with line breaks between them. -/
theorem bind_skipped {o : Outcome α i} {o' : Outcome α j} {f : Parsed Token α i → Outcome β i'}
    {g : Parsed Token α j → Outcome β j'} (h : m.Shares .here o o')
    (hf : ∀ p, Within (Token.skipNewlines p.rest) (f p))
    (hfg : ∀ v r r' hr hr', m.Common (Token.skipNewlines r) (Token.skipNewlines r') →
      ¬ m.Ends (Token.skipNewlines r) → m.Shares view (f ⟨v, r, hr⟩) (g ⟨v, r', hr'⟩)) :
    m.Shares view (o >>= f) (o' >>= g) :=
  h.bind (fun p => (hf p).from (Reaches.refl _).breaks) fun v r r' hr hr' hrest _ =>
    .skipped hrest (hf ⟨v, r, hr⟩) (hfg v r r' hr hr')

/-- One part after a statement; it has to be late itself if there are only line breaks before the
list ends. -/
theorem bind_behind {o : Outcome α i} {o' : Outcome α j} {f : Parsed Token α i → Outcome β i'}
    {g : Parsed Token α j → Outcome β j'} (h : m.Shares .behind o o')
    (hf : ∀ p, m.Ends (Token.skipNewlines p.rest) → m.Late .behind (f p))
    (hfg : ∀ v r r' hr hr', m.Common r r' → ¬ m.Ends (Token.skipNewlines r) →
      m.Shares .behind (f ⟨v, r, hr⟩) (g ⟨v, r', hr'⟩)) :
    m.Shares .behind (o >>= f) (o' >>= g) := by
  cases h with
  | @ok p q hvalue hrest =>
      obtain ⟨v, r, hr⟩ := p
      obtain ⟨v', r', hr'⟩ := q
      obtain rfl : v = v' := hvalue
      by_cases hends : m.Ends (Token.skipNewlines r)
      · exact .late (hf _ hends)
      · exact hfg v r r' hr hr' hrest hends
  | error hproblem hrest => exact .error hproblem hrest
  | late h =>
      cases h with
      | @ok p hends => exact .late (hf p hends)
      | error hends => exact .late (.error hends)

/-- What is shared of an expression is so of a statement. -/
theorem behind {o : Outcome α i} {o' : Outcome α j} (h : m.Shares .here o o') :
    m.Shares .behind o o' := by
  cases h with
  | ok hvalue hrest => exact .ok hvalue hrest
  | error hproblem hrest => exact .error hproblem hrest
  | late h =>
      cases h with
      | @ok p hends => exact .late (.ok (Ends.of_le hends (Token.length_skipNewlines_le _)))
      | error hends => exact .late (.error hends)

/-- Another value from what has been read. -/
theorem map {o : Outcome α i} {o' : Outcome α j} {f : α → β} {hi : i ≤ i'} {hj : j ≤ j'}
    (h : m.Shares view o o') :
    m.Shares view (o >>= fun p => .ok (p.map f hi)) (o' >>= fun p => .ok (p.map f hj)) := by
  cases h with
  | ok hvalue hrest => exact .ok (congrArg f hvalue) hrest
  | error hproblem hrest => exact .error hproblem hrest
  | late h => exact .late h.map

end Shares

end outcomes

/-- A sign is read from both lists or from none. -/
theorem sign_shares (s : Symbol) (h : m.Common ts us) :
    m.Shares .here (sign s ts) (sign s us) := by
  refine .of_not_ends (sign_within s ts) fun hends => ?_
  obtain ⟨⟨k, a⟩, u, ts, us, rfl, rfl, hrest⟩ := h.of_not_ends hends
  cases k with
  | symbol t =>
      unfold sign
      dsimp only
      split
      · exact .pure (hrest.cons u)
      · exact .expecting h
  | _ => exact .expecting h

end Fork

end Edict

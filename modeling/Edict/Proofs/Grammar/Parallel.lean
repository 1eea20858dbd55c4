import Edict.Proofs.Grammar.Reading

/-!
# Lists that are read in the same way

Two lists of tokens are *parallel* if they have the same kinds of tokens up to where they end or
part, and a reader *tracks* another one if on parallel lists both return the same value or report
the same problem, with parallel rests.  What is left open is what the lists look like where they
part: a `Seam` says it, with the little that readers ask of it.  They treat a line break and the end
of the input alike, unless they skip line breaks; and when line breaks are skipped and the first
list is then at its end, nothing is read from it but, perhaps, that there is no `else`.

## Main definitions

* `Seam`: what two lists look like where they end or part.
* `Seam.Parallel`, `Seam.Near`: lists that are the same up to a seam, and such lists behind line
  breaks.
* `Seam.Tracks`: outcomes on such lists that are the same up to the seam.

## Main statements

* `Seam.Tracks.bind`: steps of readers put one after the other.
* `Seam.gives_of_tracks_self`: a list is parallel to itself, which carries results from one reader
  to another one on the same list.
-/

namespace Edict

open Grammar

/-- Whether nothing goes on at the token but what begins behind line breaks. -/
def TokenKind.stops (k : TokenKind) : Bool := k.isNewline || k.isEof

/-- Nothing goes on at line breaks and at the end of the input, and only there. -/
theorem TokenKind.eq_of_stops {k : TokenKind} (h : k.stops = true) : k = .newline ∨ k = .eof := by
  cases k with
  | newline => exact .inl rfl
  | eof => exact .inr rfl
  | _ => cases h

/-- Something goes on at a token that has a role, if line breaks and the end of the input have
none. -/
theorem TokenKind.stops_of_role {α : Type} {role : TokenKind → Option α} {k : TokenKind} {a : α}
    (h : role k = some a) (hnewline : role .newline = none) (heof : role .eof = none) :
    k.stops = false := by
  refine Bool.eq_false_iff.mpr fun hk => ?_
  rcases eq_of_stops hk with rfl | rfl
  · rw [hnewline] at h
    cases h
  · rw [heof] at h
    cases h

/-- At the end of input there are no line breaks to skip. -/
theorem skipNewlines_of_eof {ts : List Token} (h : (Token.peek ts).kind = .eof) :
    Token.skipNewlines ts = ts := by
  rcases ts with _ | ⟨t, ts⟩
  · rfl
  · rw [peek_cons] at h
    exact skipNewlines_cons (by rw [h]; rfl) ts

/-- The same token is of the same kind. -/
theorem Token.kind_eq_of_eq {t u : Token} (h : u = t) : u.kind = t.kind := congrArg kind h

/-- How two lists of tokens are compared, and where they may end or part. -/
structure Seam where
  /-- Whether the second list may go on where the first one is used up. -/
  lax : Prop
  /-- Tokens in the place of one another. -/
  same : Token → Token → Prop
  /-- Where the lists end or part. -/
  final : List Token → List Token → Prop
  kind_eq : ∀ {t u}, same t u → u.kind = t.kind
  stops : ∀ {ts us}, final ts us →
    (Token.peek ts).kind.stops = true ∧ (Token.peek us).kind.stops = true
  skip : ∀ {ts us}, final ts us →
    final (Token.skipNewlines ts) (Token.skipNewlines us) ∨
      lax ∧ (Token.peek (Token.skipNewlines ts)).kind = .eof ∧
        (Token.peek (Token.skipNewlines us)).kind ≠ .keyword .elseKw

namespace Seam

variable {m : Seam} {ts us : List Token} {k : TokenKind} {a : Span}

/-! ## Parallel lists -/

/-- Lists with the same tokens up to where they end or part. -/
inductive Parallel (m : Seam) : List Token → List Token → Prop
  | final {ts us : List Token} : m.final ts us → Parallel m ts us
  | cons {t u : Token} {ts us : List Token} : t.kind ≠ .eof → m.same t u → Parallel m ts us →
      Parallel m (t :: ts) (u :: us)

namespace Parallel

/-- The first tokens are of the same kind, or nothing goes on at either. -/
theorem peek (h : m.Parallel ts us) :
    (Token.peek us).kind = (Token.peek ts).kind ∨
      (Token.peek ts).kind.stops = true ∧ (Token.peek us).kind.stops = true := by
  cases h with
  | final h => exact .inr (m.stops h)
  | cons _ hsame _ => exact .inl (m.kind_eq hsame)

/-- A first token of the first list has its counterpart. -/
theorem uncons (h : m.Parallel (⟨k, a⟩ :: ts) us) (hk : k.stops = false) :
    ∃ b us', us = ⟨k, b⟩ :: us' ∧ m.Parallel ts us' := by
  cases h with
  | final h =>
      have := (m.stops h).1
      rw [peek_cons, hk] at this
      cases this
  | @cons _ u _ us _ hsame hrest =>
      have hkind := m.kind_eq hsame
      obtain ⟨k', b⟩ := u
      obtain rfl : k' = k := hkind
      exact ⟨b, us, rfl, hrest⟩

/-- A first token of the second list has its counterpart. -/
theorem uncons_right (h : m.Parallel ts (⟨k, a⟩ :: us)) (hk : k.stops = false) :
    ∃ b ts', ts = ⟨k, b⟩ :: ts' ∧ m.Parallel ts' us := by
  cases h with
  | final h =>
      have := (m.stops h).2
      rw [peek_cons, hk] at this
      cases this
  | @cons t _ ts _ _ hsame hrest =>
      have hkind := m.kind_eq hsame
      obtain ⟨k', b⟩ := t
      obtain rfl : k = k' := hkind
      exact ⟨b, ts, rfl, hrest⟩

/-- A list that does not begin with some token is parallel to none that does. -/
theorem head_ne (h : m.Parallel ts us) (hk : k.stops = false)
    (hts : ∀ b rest, ts = ⟨k, b⟩ :: rest → False) : ∀ b rest, us = ⟨k, b⟩ :: rest → False := by
  rintro b rest rfl
  obtain ⟨b', ts, rfl, -⟩ := h.uncons_right hk
  exact hts b' ts rfl

/-- Whatever does not tell a line break from the end of the input is the same of both first
tokens. -/
theorem peek_congr {β : Type} {p : TokenKind → β} (h : m.Parallel ts us)
    (hp : p .newline = p .eof) : p (Token.peek us).kind = p (Token.peek ts).kind := by
  have hstop : ∀ k : TokenKind, k.stops = true → p k = p .eof := by
    intro k hk
    rcases TokenKind.eq_of_stops hk with rfl | rfl
    · exact hp
    · rfl
  rcases h.peek with hkind | ⟨hts, hus⟩
  · rw [hkind]
  · rw [hstop _ hts, hstop _ hus]

end Parallel

/-- Lists that are parallel, or the first one is at its end and may be left behind. -/
def Near (m : Seam) (ts us : List Token) : Prop :=
  m.Parallel ts us ∨ m.lax ∧ (Token.peek ts).kind = .eof

/-- Parallel lists are so behind line breaks, unless the first one is at its end there. -/
theorem Parallel.skipNewlines (h : m.Parallel ts us) :
    m.Parallel (Token.skipNewlines ts) (Token.skipNewlines us) ∨
      m.lax ∧ (Token.peek (Token.skipNewlines ts)).kind = .eof ∧
        (Token.peek (Token.skipNewlines us)).kind ≠ .keyword .elseKw := by
  induction h with
  | final h => exact (m.skip h).imp_left .final
  | @cons t u ts us heof hsame hrest ih =>
      have hkind := m.kind_eq hsame
      rcases hnl : t.kind.isNewline
      · rw [skipNewlines_cons hnl, skipNewlines_cons (by rw [hkind, hnl])]
        exact .inl (.cons heof hsame hrest)
      · have hskip : ∀ {v : Token} {vs : List Token}, v.kind.isNewline = true →
            Token.skipNewlines (v :: vs) = Token.skipNewlines vs :=
          fun hv => List.dropWhile_cons_of_pos hv
        rw [hskip hnl, hskip (by rw [hkind, hnl])]
        exact ih

/-- Parallel lists are near one another behind line breaks. -/
theorem Parallel.near_skipNewlines (h : m.Parallel ts us) :
    m.Near (Token.skipNewlines ts) (Token.skipNewlines us) :=
  h.skipNewlines.imp_right fun hend => ⟨hend.1, hend.2.1⟩

/-- Where the first list is not at its end, near lists are parallel. -/
theorem Near.parallel (h : m.Near (⟨k, a⟩ :: ts) us) (hk : k.stops = false) :
    m.Parallel (⟨k, a⟩ :: ts) us := by
  rcases h with h | ⟨-, heof⟩
  · exact h
  · obtain rfl : k = .eof := heof
    cases hk

/-- A first token of the first list has its counterpart. -/
theorem Near.uncons (h : m.Near (⟨k, a⟩ :: ts) us) (hk : k.stops = false) :
    ∃ b us', us = ⟨k, b⟩ :: us' ∧ m.Parallel ts us' :=
  (h.parallel hk).uncons hk

/-! ## Outcomes -/

section outcomes

variable {α β : Type} {i j i' j' : Nat}

/-- The same value or the same problem, and parallel rests; if the first list may be left behind,
nothing is said of what the second reader does where the first one fails. -/
inductive Tracks (m : Seam) {α : Type} {i j : Nat} : Outcome α i → Outcome α j → Prop
  | ok {p : Parsed Token α i} {q : Parsed Token α j} : p.value = q.value →
      m.Parallel p.rest q.rest → Tracks m (.ok p) (.ok q)
  | error {f g : Failure} : f.problem = g.problem → m.Parallel f.rest g.rest →
      Tracks m (.error f) (.error g)
  | lost {f : Failure} {o : Outcome α j} : m.lax → Tracks m (.error f) o

namespace Tracks

/-- One part after the other. -/
theorem bind {o : Outcome α i} {o' : Outcome α j} {f : Parsed Token α i → Outcome β i'}
    {g : Parsed Token α j → Outcome β j'} (h : m.Tracks o o')
    (hfg : ∀ v r r' hr hr', m.Parallel r r' → m.Tracks (f ⟨v, r, hr⟩) (g ⟨v, r', hr'⟩)) :
    m.Tracks (o >>= f) (o' >>= g) := by
  cases h with
  | @ok p q hvalue hrest =>
      obtain ⟨v, r, hr⟩ := p
      obtain ⟨v', r', hr'⟩ := q
      obtain rfl : v = v' := hvalue
      exact hfg v r r' hr hr' hrest
  | error hproblem hrest => exact .error hproblem hrest
  | lost hlax => exact .lost hlax

/-- A value is returned. -/
theorem pure {v : α} {r r' : List Token} {hr : r.length < i} {hr' : r'.length < j}
    (h : m.Parallel r r') : m.Tracks (.ok ⟨v, r, hr⟩) (.ok ⟨v, r', hr'⟩ : Outcome α j) :=
  .ok rfl h

/-- The same is expected. -/
theorem expecting {what : Expected} {r r' : List Token} (h : m.Near r r') :
    m.Tracks (.error (.expecting what r) : Outcome α i) (.error (.expecting what r') : Outcome α j) :=
  h.elim (.error rfl ·) fun hend => .lost hend.1

/-- What tracks a reader of an empty list fails. -/
theorem fails {o : Outcome α i} {o' : Outcome α 0} (h : m.Tracks o o') : ∃ f, o = .error f := by
  cases h with
  | @ok _ q => exact absurd q.shorter (Nat.not_lt_zero _)
  | error => exact ⟨_, rfl⟩
  | lost => exact ⟨_, rfl⟩

end Tracks

end outcomes

/-- A sign is read in parallel. -/
theorem sign_tracks (s : Symbol) (h : m.Near ts us) : m.Tracks (sign s ts) (sign s us) := by
  unfold sign
  split
  · rename_i t a rest
    obtain ⟨b, us, rfl, hrest⟩ := h.uncons rfl
    dsimp only
    split
    · exact .pure hrest
    · exact .expecting h
  · rename_i hts
    rcases h with h | ⟨hlax, -⟩
    · split
      · obtain ⟨b, ts, rfl, -⟩ := h.uncons_right rfl
        exact absurd rfl (hts _ _ _)
      · exact .expecting (.inl h)
    · exact .lost hlax

/-! ## A list and itself -/

/-- The seam at which nothing parts: a list and itself, up to its end. -/
def self : Seam where
  lax := False
  same t u := u = t
  final ts us := us = ts ∧ (Token.peek ts).kind = .eof
  kind_eq := Token.kind_eq_of_eq
  stops := by
    rintro ts _ ⟨rfl, hts⟩
    rw [hts]
    exact ⟨rfl, rfl⟩
  skip := by
    rintro ts _ ⟨rfl, hts⟩
    rw [skipNewlines_of_eof hts]
    exact .inl ⟨rfl, hts⟩

/-- Every list is parallel to itself. -/
theorem parallel_self (ts : List Token) : self.Parallel ts ts := by
  induction ts with
  | nil => exact .final ⟨rfl, rfl⟩
  | cons t ts ih =>
      by_cases ht : t.kind = .eof
      · exact .final ⟨rfl, ht⟩
      · exact .cons ht rfl ih

/-- No list is so to another one. -/
theorem eq_of_parallel_self (h : self.Parallel ts us) : us = ts := by
  induction h with
  | final h => exact h.1
  | cons _ hsame _ ih => rw [hsame, ih]

/-- What one of two readers gives, the other one gives. -/
theorem gives_of_tracks_self {α : Type} {i j : Nat} {o : Outcome α i} {o' : Outcome α j} {v : α}
    {rest : List Token} (h : self.Tracks o o') (hgives : Gives o v rest) : Gives o' v rest := by
  obtain ⟨hlt, rfl⟩ := hgives
  cases h with
  | @ok _ q hvalue hrest =>
      obtain rfl : v = q.value := hvalue
      obtain rfl := eq_of_parallel_self hrest
      exact ⟨q.shorter, rfl⟩

end Seam

end Edict

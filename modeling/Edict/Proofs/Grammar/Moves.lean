import Edict.Proofs.Grammar.Progress

/-!
# Moves of cursors

A cursor as a machine.  A host may ask it for the tokens at its place and move it, in any order
(`Cursor.Request`); the cursor answers, and is then at another place, or where it was.

Each request is said in terms of what stands at the cursor: how many tokens there are up to the next
end of input (`Cursor.consume_eq`), and how many line breaks there are in front
(`Cursor.offsetPastNewlines_eq`, `Cursor.skipNewlines_eq_consume`).  From this follows what holds of
every cursor that requests lead to (`Cursor.afterAll_lawful`).

## Main definitions

* `Cursor.Request`, `Cursor.Reply`, `Cursor.answer`: the cursor as a machine.
* `Cursor.Lawful`: everything that is said of a cursor at one place.

## Main statements

* `Cursor.after_in_list`, `Cursor.afterAll_in_list`: no request takes a cursor out of its list.
* `Cursor.afterAll_lawful`: the laws hold after any requests, on any list of tokens, with or without
  an end of input.
-/

namespace Edict

namespace Cursor

variable {c : Cursor}

/-! ## Requests -/

/-- What may be asked of a cursor. -/
inductive Request where
  | position
  | peek (n : Nat)
  | current
  | check (kind : TokenKind)
  | atEnd
  | offsetPastNewlines
  | advance
  | consume (n : Nat)
  | seek (position : Nat)
  | expect (kind : TokenKind)
  | expectIdent
  | skipNewlines

/-- Whether a request only looks at tokens. -/
def Request.looks : Request → Bool
  | .position | .peek _ | .current | .check _ | .atEnd | .offsetPastNewlines => true
  | _ => false

/-- What a cursor answers. -/
inductive Reply where
  | done
  | number (n : Nat)
  | flag (b : Bool)
  | token (t : Token)
  | name (s : String)
  | failed (f : Failure)

/-- The answer to a request for a certain token. -/
def Reply.ofFound {α : Type} (reply : α → Reply) : Found α → Reply × Cursor
  | (.ok a, c) => (reply a, c)
  | (.error f, c) => (.failed f, c)

/-- Answers a request. -/
def answer (c : Cursor) : Request → Reply × Cursor
  | .position => (.number c.position, c)
  | .peek n => (.token (c.peek n), c)
  | .current => (.token c.current, c)
  | .check kind => (.flag (c.check kind), c)
  | .atEnd => (.flag c.atEnd, c)
  | .offsetPastNewlines => (.number c.offsetPastNewlines, c)
  | .advance => (.token c.current, c.advance)
  | .consume n => (.done, c.consume n)
  | .seek position => (.done, c.seek position)
  | .expect kind => Reply.ofFound .token (c.expect kind)
  | .expectIdent => Reply.ofFound .name c.expectIdent
  | .skipNewlines => (.done, c.skipNewlines)

/-- The cursor after a request. -/
def after (c : Cursor) (r : Request) : Cursor := (c.answer r).2

/-- The cursor after requests. -/
def afterAll (c : Cursor) (rs : List Request) : Cursor := rs.foldl after c

/-! ## The token at a cursor -/

/-- The tokens ahead are those of the rest. -/
theorem peek_eq_getElem? (c : Cursor) (n : Nat) : c.peek n = c.rest[n]?.getD Token.eof := by
  unfold peek rest
  rw [List.getElem?_drop]

/-- A cursor is at the end, where it stays, or it moves over the token at it. -/
theorem end_or_advance (c : Cursor) :
    (c.atEnd = true ∧ c.advance = c ∧ Token.beforeEof c.rest = []) ∨
      ∃ t, c.atEnd = false ∧ c.advance = { c with position := c.position + 1 } ∧
        c.rest = t :: c.advance.rest ∧
        Token.beforeEof c.rest = t :: Token.beforeEof c.advance.rest := by
  have hcurrent : c.atEnd = (c.rest.head?.getD Token.eof).kind.isEof := by
    rw [atEnd, current, peek_eq_getElem?, List.head?_eq_getElem?]
  cases hend : c.atEnd with
  | true =>
      refine .inl ⟨rfl, if_pos hend, ?_⟩
      rw [hend] at hcurrent
      rcases hrest : c.rest with _ | ⟨t, rest⟩
      · rfl
      · rw [hrest] at hcurrent
        exact List.takeWhile_cons_of_neg (by simpa using hcurrent.symm)
  | false =>
      have hadvance : c.advance = { c with position := c.position + 1 } :=
        if_neg (by rw [hend]; exact Bool.false_ne_true)
      rw [hend] at hcurrent
      rcases hrest : c.rest with _ | ⟨t, rest⟩
      · rw [hrest] at hcurrent
        cases hcurrent
      · rw [hrest] at hcurrent
        have hnext : c.advance.rest = rest := by
          rw [hadvance, Cursor.rest, ← List.tail_drop]
          exact congrArg List.tail hrest
        refine .inr ⟨t, rfl, hadvance, congrArg (t :: ·) hnext.symm, ?_⟩
        rw [hnext]
        exact List.takeWhile_cons_of_pos (by simpa using hcurrent.symm)

/-- Within its list, a cursor is at the end behind the last token and at an end of input. -/
theorem atEnd_iff (h : c.position ≤ c.tokens.length) :
    c.atEnd = true ↔
      c.position = c.tokens.length ∨ ∃ t, c.tokens[c.position]? = some t ∧ t.kind = .eof := by
  have hcurrent : c.atEnd = (c.tokens[c.position]?.getD Token.eof).kind.isEof := rfl
  have hisEof : ∀ k : TokenKind, k.isEof = true ↔ k = .eof := by
    intro k
    cases k <;> simp [TokenKind.isEof]
  rw [hcurrent]
  rcases ht : c.tokens[c.position]? with _ | t
  · have hle := List.getElem?_eq_none_iff.mp ht
    exact iff_of_true rfl (.inl (Nat.le_antisymm h hle))
  · have hlt := (List.getElem?_eq_some_iff.mp ht).1
    simp [hisEof, Nat.ne_of_lt hlt]

/-! ## Moving on -/

/-- Moving on goes over as many tokens as are asked for, but not over an end of input. -/
theorem consume_eq (c : Cursor) (n : Nat) :
    c.consume n = { c with position := c.position + min n (Token.beforeEof c.rest).length } := by
  induction n generalizing c with
  | zero => simp [consume]
  | succ n ih =>
      rw [consume, ih]
      obtain ⟨-, hstay, hnone⟩ | ⟨t, -, hmove, -, hmore⟩ := c.end_or_advance
      · rw [hstay, hnone]
        simp
      · rw [hmore, hmove, List.length_cons, Nat.succ_min_succ]
        simp [Nat.add_assoc, Nat.add_comm 1]

/-- A cursor that moves on stays in its list. -/
theorem consume_le (h : c.position ≤ c.tokens.length) (n : Nat) :
    (c.consume n).position ≤ c.tokens.length := by
  have htokens : (Token.beforeEof c.rest).length ≤ c.tokens.length - c.position := by
    rw [← List.length_drop]
    exact (List.takeWhile_prefix _).length_le
  rw [consume_eq]
  exact Nat.add_le_of_le_sub' h (Nat.le_trans (Nat.min_le_right _ _) htokens)

/-- One step is moving on by one. -/
theorem advance_eq_consume (c : Cursor) : c.advance = c.consume 1 := rfl

/-- Moving on twice is moving on once. -/
theorem consume_add (c : Cursor) (m n : Nat) : c.consume (m + n) = (c.consume m).consume n := by
  induction m generalizing c with
  | zero => rw [Nat.zero_add, consume]
  | succ m ih => rw [Nat.succ_add, consume, ih, consume]

/-! ## Line breaks -/

/-- The line breaks ahead are counted from where the look ahead has got. -/
theorem offsetFrom_eq (c : Cursor) (offset : Nat) :
    c.offsetFrom offset =
      offset + ((c.rest.drop offset).takeWhile (·.kind.isNewline)).length := by
  fun_induction offsetFrom c offset with
  | case1 offset h ih =>
      have hlt : offset < c.rest.length := by
        rw [rest, List.length_drop]
        exact Nat.lt_sub_of_add_lt (Nat.add_comm _ _ ▸ lt_length_of_isNewline h)
      have hkind : c.rest[offset].kind.isNewline = true := by
        rwa [peek_eq_getElem?, List.getElem?_eq_getElem hlt] at h
      rw [ih, List.drop_eq_getElem_cons hlt, List.takeWhile_cons, if_pos hkind, List.length_cons]
      exact Nat.add_right_comm _ _ _
  | case2 offset h =>
      have hnone : (c.rest.drop offset).takeWhile (·.kind.isNewline) = [] := by
        rw [peek_eq_getElem?, ← List.head?_drop] at h
        rcases hdrop : c.rest.drop offset with _ | ⟨t, rest⟩
        · rfl
        · rw [hdrop] at h
          exact List.takeWhile_cons_of_neg h
      rw [hnone]
      rfl

/-- As many line breaks are ahead as stand in front of the rest. -/
theorem offsetPastNewlines_eq (c : Cursor) :
    c.offsetPastNewlines = (c.rest.takeWhile (·.kind.isNewline)).length := by
  rw [offsetPastNewlines, offsetFrom_eq, List.drop_zero, Nat.zero_add]

/-- Behind a line break there is one less ahead. -/
theorem offsetPastNewlines_of_isNewline (h : c.current.kind.isNewline = true) :
    c.offsetPastNewlines = c.advance.offsetPastNewlines + 1 := by
  have hnext : c.advance.rest = c.rest.drop 1 := by
    rw [advance_of_isNewline h, rest, rest, List.drop_drop]
  have hahead : c.offsetPastNewlines = c.offsetFrom 1 := by
    rw [offsetPastNewlines, offsetFrom]
    exact dif_pos h
  rw [hahead, offsetFrom_eq, offsetPastNewlines_eq, hnext, Nat.add_comm]

/-- Skipping line breaks is moving on as far as these were seen ahead. -/
theorem skipNewlines_eq_consume (c : Cursor) : c.skipNewlines = c.consume c.offsetPastNewlines := by
  fun_induction skipNewlines c with
  | case1 c h ih => rw [ih, offsetPastNewlines_of_isNewline h, consume]
  | case2 c h =>
      have hnone : c.offsetPastNewlines = 0 := by
        rw [offsetPastNewlines, offsetFrom]
        exact dif_neg h
      rw [hnone, consume]

/-- The line breaks ahead stand in front of the next end of input. -/
theorem offsetPastNewlines_le (c : Cursor) :
    c.offsetPastNewlines ≤ (Token.beforeEof c.rest).length := by
  have hother : ∀ t : Token, t.kind.isNewline = true → (!t.kind.isEof) = true := by
    intro t
    cases t.kind <;> simp [TokenKind.isNewline, TokenKind.isEof]
  rw [offsetPastNewlines_eq, Token.beforeEof, (Grammar.takeWhile_dropWhile_of_imp hother c.rest).1,
    List.length_append]
  exact Nat.le_add_right _ _

/-- Line breaks are skipped up to the place that was seen ahead. -/
theorem skipNewlines_eq (c : Cursor) :
    c.skipNewlines = { c with position := c.position + c.offsetPastNewlines } := by
  rw [skipNewlines_eq_consume, consume_eq, Nat.min_eq_left c.offsetPastNewlines_le]

/-- The look ahead goes over line breaks, up to a token that is none. -/
theorem isNewline_of_offsetFrom (c : Cursor) (offset : Nat) :
    (∀ n, offset ≤ n → n < c.offsetFrom offset → (c.peek n).kind.isNewline = true) ∧
      ¬(c.peek (c.offsetFrom offset)).kind.isNewline = true := by
  fun_induction offsetFrom c offset with
  | case1 offset h ih =>
      refine ⟨fun n hn hlt => ?_, ih.2⟩
      rcases Nat.eq_or_lt_of_le hn with rfl | hn
      · exact h
      · exact ih.1 n hn hlt
  | case2 offset h => exact ⟨fun n hn hlt => absurd hn (Nat.not_le.mpr hlt), h⟩

/-- Up to the place that is seen ahead there are line breaks, and there is none at it. -/
theorem isNewline_peek_iff {n : Nat} (h : n ≤ c.offsetPastNewlines) :
    (c.peek n).kind.isNewline = true ↔ n < c.offsetPastNewlines := by
  obtain ⟨hbreaks, hnone⟩ := c.isNewline_of_offsetFrom 0
  rcases Nat.lt_or_eq_of_le h with hlt | rfl
  · exact iff_of_true (hbreaks n (Nat.zero_le n) hlt) hlt
  · exact iff_of_false hnone (Nat.lt_irrefl _)

/-- The token behind the line breaks can be moved over with them. -/
theorem consume_behind_newlines (h : (c.peek c.offsetPastNewlines).kind ≠ .eof) :
    c.consume (c.offsetPastNewlines + 1) =
      { c with position := c.position + c.offsetPastNewlines + 1 } := by
  have hcurrent : c.skipNewlines.current = c.peek c.offsetPastNewlines := by
    rw [skipNewlines_eq]
    rfl
  have hend : ¬c.skipNewlines.atEnd = true := by
    rw [atEnd, hcurrent]
    intro heof
    unfold TokenKind.isEof at heof
    split at heof
    · exact h ‹_›
    · cases heof
  rw [consume_add, ← skipNewlines_eq_consume, ← advance_eq_consume, advance, if_neg hend,
    skipNewlines_eq]

/-! ## Every cursor that is reached -/

/-- A token that is asked for is moved over if it stands there. -/
theorem expect_cases (c : Cursor) (kind : TokenKind) :
    c.expect kind = (.ok c.current, c.advance) ∨ ∃ f, c.expect kind = (.error f, c) := by
  unfold expect
  split
  · exact .inl rfl
  · exact .inr ⟨_, rfl⟩

/-- So is a name. -/
theorem expectIdent_cases (c : Cursor) :
    (∃ name, c.expectIdent = (.ok name, c.advance)) ∨ ∃ f, c.expectIdent = (.error f, c) := by
  unfold expectIdent
  split
  · exact .inl ⟨_, rfl⟩
  · exact .inr ⟨_, rfl⟩

/-- A request moves a cursor on, by some number of steps, unless it is `seek`. -/
theorem after_cases (c : Cursor) (r : Request) :
    (∃ position, r = .seek position ∧ c.after r = c.seek position) ∨
      ∃ n, c.after r = c.consume n := by
  cases r with
  | seek position => exact .inl ⟨position, rfl, rfl⟩
  | advance => exact .inr ⟨1, rfl⟩
  | consume n => exact .inr ⟨n, rfl⟩
  | skipNewlines => exact .inr ⟨_, c.skipNewlines_eq_consume⟩
  | expect kind =>
      obtain hfound | ⟨f, hfailed⟩ := c.expect_cases kind
      · exact .inr ⟨1, congrArg (fun found => (Reply.ofFound .token found).2) hfound⟩
      · exact .inr ⟨0, congrArg (fun found => (Reply.ofFound .token found).2) hfailed⟩
  | expectIdent =>
      obtain ⟨name, hfound⟩ | ⟨f, hfailed⟩ := c.expectIdent_cases
      · exact .inr ⟨1, congrArg (fun found => (Reply.ofFound .name found).2) hfound⟩
      · exact .inr ⟨0, congrArg (fun found => (Reply.ofFound .name found).2) hfailed⟩
  | _ => exact .inr ⟨0, rfl⟩

/-- What is asked for and does not stand there is not moved over. -/
theorem after_of_failed {r : Request} {f : Failure} (h : (c.answer r).1 = .failed f) :
    c.after r = c := by
  cases r with
  | expect kind =>
      obtain hfound | ⟨_, hfailed⟩ := c.expect_cases kind
      · rw [answer, hfound] at h
        cases h
      · exact congrArg (fun found => (Reply.ofFound .token found).2) hfailed
  | expectIdent =>
      obtain ⟨name, hfound⟩ | ⟨_, hfailed⟩ := c.expectIdent_cases
      · rw [answer, hfound] at h
        cases h
      · exact congrArg (fun found => (Reply.ofFound .name found).2) hfailed
  | _ => cases h

/-- What holds of a cursor that is in its list. -/
structure Lawful (c : Cursor) : Prop where
  /-- It is in its list. -/
  le_length : c.position ≤ c.tokens.length
  /-- Only `seek` moves it back. -/
  le_after : ∀ r, (∀ position, r ≠ .seek position) → c.position ≤ (c.after r).position
  /-- `seek` moves it to every position of the list. -/
  seek : ∀ position ≤ c.tokens.length, c.after (.seek position) = { c with position := position }
  /-- Looking leaves it where it is. -/
  looks : ∀ r, r.looks = true → c.after r = c
  /-- So does asking for a token that does not stand there. -/
  failed : ∀ r f, (c.answer r).1 = .failed f → c.after r = c
  /-- It moves over as many tokens as it should, but not over an end of input. -/
  consume : ∀ n, c.after (.consume n) =
    { c with position := c.position + min n (Token.beforeEof c.rest).length }
  /-- Skipping line breaks leads to where they were seen to end. -/
  skipNewlines : c.after .skipNewlines = { c with position := c.position + c.offsetPastNewlines }
  /-- Up to there stand line breaks, and there stands none. -/
  newlines : ∀ n ≤ c.offsetPastNewlines,
    ((c.peek n).kind.isNewline = true ↔ n < c.offsetPastNewlines)
  /-- What stands there can be moved over together with the line breaks. -/
  behind : (c.peek c.offsetPastNewlines).kind ≠ .eof →
    c.after (.consume (c.offsetPastNewlines + 1)) =
      { c with position := c.position + c.offsetPastNewlines + 1 }
  /-- It is at the end behind the last token and at an end of input. -/
  atEnd : c.atEnd = true ↔
    c.position = c.tokens.length ∨ ∃ t, c.tokens[c.position]? = some t ∧ t.kind = .eof

/-- A cursor that is in its list is lawful. -/
theorem Lawful.of_le (h : c.position ≤ c.tokens.length) : c.Lawful where
  le_length := h
  le_after r hr := by
    obtain ⟨position, rfl, -⟩ | ⟨n, hn⟩ := c.after_cases r
    · exact absurd rfl (hr position)
    · rw [hn, consume_eq]
      exact Nat.le_add_right _ _
  seek position hposition := by
    show c.seek position = _
    rw [Cursor.seek, Nat.min_eq_left hposition]
  looks r hr := by cases r <;> first | rfl | cases hr
  failed _ _ := after_of_failed
  consume := c.consume_eq
  skipNewlines := c.skipNewlines_eq
  newlines _ := isNewline_peek_iff
  behind := consume_behind_newlines
  atEnd := atEnd_iff h

/-- A request keeps the list, and the cursor in it. -/
theorem after_in_list (h : c.position ≤ c.tokens.length) (r : Request) :
    (c.after r).tokens = c.tokens ∧ (c.after r).position ≤ (c.after r).tokens.length := by
  obtain ⟨position, -, hseek⟩ | ⟨n, hn⟩ := c.after_cases r
  · rw [hseek]
    exact ⟨rfl, Nat.min_le_right _ _⟩
  · have htokens : (c.consume n).tokens = c.tokens := by rw [consume_eq]
    rw [hn, htokens]
    exact ⟨rfl, consume_le h n⟩

/-- Requests keep the list, and the cursor in it. -/
theorem afterAll_in_list (h : c.position ≤ c.tokens.length) (rs : List Request) :
    (c.afterAll rs).tokens = c.tokens ∧
      (c.afterAll rs).position ≤ (c.afterAll rs).tokens.length := by
  induction rs generalizing c with
  | nil => exact ⟨rfl, h⟩
  | cons r rs ih =>
      obtain ⟨htokens, hle⟩ := after_in_list h r
      obtain ⟨htokens', hle'⟩ := ih hle
      exact ⟨htokens'.trans htokens, hle'⟩

/-- Wherever requests lead to from the first token of a list, the cursor is in that list and does
what is asked of it: looking and asking in vain leave it where it is, only `seek` moves it back, and
every other move is over as many tokens as it should be, but not over an end of input. -/
theorem afterAll_lawful (tokens : List Token) (rs : List Request) :
    ((start tokens).afterAll rs).tokens = tokens ∧ ((start tokens).afterAll rs).Lawful := by
  have hstart : (start tokens).position ≤ (start tokens).tokens.length := Nat.zero_le _
  obtain ⟨htokens, hle⟩ := afterAll_in_list hstart rs
  exact ⟨htokens, .of_le hle⟩

end Cursor

end Edict

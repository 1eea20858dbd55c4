import Edict.Grammar.Failure

/-!
# Cursors

A place in a token list, with the moves that a host may make over it.  Behind the last token, and at
an `eof` token, a cursor stands at the end; only `seek` leaves that place again.
-/

namespace Edict

/-- A place in a token list. -/
structure Cursor where
  tokens : List Token
  position : Nat

namespace Cursor

/-- The cursor at the first token. -/
def start (tokens : List Token) : Cursor := ⟨tokens, 0⟩

/-- The tokens from the cursor on. -/
def rest (c : Cursor) : List Token := c.tokens.drop c.position

/-- The token `n` places ahead. -/
def peek (c : Cursor) (n : Nat) : Token := c.tokens[c.position + n]?.getD Token.eof

/-- The token at the cursor. -/
def current (c : Cursor) : Token := c.peek 0

/-- Whether the cursor is at the end. -/
def atEnd (c : Cursor) : Bool := c.current.kind.isEof

/-- The cursor behind the current token; at the end it stays where it is. -/
def advance (c : Cursor) : Cursor := if c.atEnd then c else { c with position := c.position + 1 }

/-- The cursor after `n` moves. -/
def consume (c : Cursor) : Nat → Cursor
  | 0 => c
  | n + 1 => c.advance.consume n

/-- The cursor at a position, or behind the last token if there is no such position. -/
def seek (c : Cursor) (position : Nat) : Cursor :=
  { c with position := min position c.tokens.length }

/-- Whether the current token is of the given kind. -/
def check (c : Cursor) (kind : TokenKind) : Bool := c.current.kind.sameKind kind

/-- What a move that asks for a certain token finds: what it asks for, with the cursor behind it, or
the failure, with the cursor where it was. -/
abbrev Found (α : Type) := Except Failure α × Cursor

/-- Moves over a token of the given kind. -/
def expect (c : Cursor) (kind : TokenKind) : Found Token :=
  if c.check kind then (.ok c.current, c.advance)
  else (.error (.expecting (.token kind) c.rest), c)

/-- Moves over a name. -/
def expectIdent (c : Cursor) : Found String :=
  match c.current.kind with
  | .ident name => (.ok name, c.advance)
  | _ => (.error (.expecting .identifier c.rest), c)

/-! ## Line breaks -/

/-- Where a line break stands there is a token of the list. -/
theorem lt_length_of_isNewline {c : Cursor} {n : Nat} (h : (c.peek n).kind.isNewline = true) :
    c.position + n < c.tokens.length := by
  refine Nat.lt_of_not_le fun hle => ?_
  have hnone : c.tokens[c.position + n]? = none := List.getElem?_eq_none hle
  rw [peek, hnone] at h
  cases h

/-- A cursor at a line break moves on. -/
theorem advance_of_isNewline {c : Cursor} (h : c.current.kind.isNewline = true) :
    c.advance = { c with position := c.position + 1 } := by
  refine if_neg fun hend => ?_
  unfold atEnd at hend
  cases hkind : c.current.kind with
  | newline =>
      rw [hkind] at hend
      cases hend
  | _ =>
      rw [hkind] at h
      cases h

/-- How far ahead the first token stands that is no line break, looked for from `offset` places
ahead. -/
def offsetFrom (c : Cursor) (offset : Nat) : Nat :=
  if h : (c.peek offset).kind.isNewline = true then c.offsetFrom (offset + 1) else offset
termination_by c.tokens.length - (c.position + offset)
decreasing_by exact Nat.sub_succ_lt_self _ _ (lt_length_of_isNewline h)

/-- How far ahead the first token stands that is no line break. -/
def offsetPastNewlines (c : Cursor) : Nat := c.offsetFrom 0

/-- A cursor that moves on from a line break has less in front of it. -/
theorem left_lt_of_isNewline {c : Cursor} (h : c.current.kind.isNewline = true) :
    c.advance.tokens.length - c.advance.position < c.tokens.length - c.position := by
  rw [advance_of_isNewline h]
  exact Nat.sub_succ_lt_self _ _ (lt_length_of_isNewline h)

/-- The cursor moved on as long as a line break stands at it. -/
def skipNewlines (c : Cursor) : Cursor :=
  if _ : c.current.kind.isNewline = true then c.advance.skipNewlines else c
termination_by c.tokens.length - c.position
decreasing_by exact left_lt_of_isNewline ‹_›

end Cursor

end Edict

import Edict.Number.Reading
import Edict.Token.Basic
import Edict.Token.Pattern

/-!
# The words of the language

The table of all shapes of words.  At any place the longest word counts, whatever its rule; of two
rules with a longest word of the same length the one that stands earlier in the table decides, so
fixed words stand before the general shapes: `if` is a keyword, `iffy` is a name.  Letter case does
not matter in fixed words made of letters.
-/

namespace Edict

/-- What a word becomes. -/
inductive Lexeme where
  /-- A token that carries nothing. -/
  | fixed (kind : TokenKind)
  | number
  | name
  | quotedText
  /-- A text whose closing quote never comes. -/
  | openText
  /-- Digits with more than one decimal point. -/
  | malformedNumber
deriving Repr

/-- A shape of words and what they become. -/
structure Rule where
  lexeme : Lexeme
  pattern : Pattern

namespace Rule

open Pattern

/-! ## Classes of characters -/

/-- Space, tab and form feed separate words and are no words themselves. -/
def isBlank (c : Char) : Bool := c == ' ' || c == '\t' || c == '\x0c'

/-- Characters that may begin a name. -/
def startsName (c : Char) : Bool := c.isAlpha || c == '_' || c == '$' || c == '@'

/-- Characters that may go on a name. -/
def continuesName (c : Char) : Bool := c.isAlphanum || c == '_' || c == '$'

/-- A decimal digit. -/
def digit : Pattern := .one Char.isDigit

/-- A decimal point. -/
def point : Pattern := .one (· == '.')

/-- An optional minus sign. -/
def minusSign : Pattern := optional (.one (· == '-'))

/-! ## Shapes -/

/-- A line feed, a carriage return, or a carriage return with its line feed. -/
def lineBreak : Pattern :=
  .alt (word ['\r', '\n']) (.alt (word ['\n']) (word ['\r']))

/-- Digits with at most one point among them. -/
def number : Pattern :=
  .seq minusSign (.seq (atLeastOne digit) (optional (.seq point (atLeastOne digit))))

/-- Digits with a second point. -/
def manyPoints : Pattern :=
  .seq minusSign (.seq (atLeastOne digit) (.seq point (.seq (.many digit)
    (.seq point (.many (.one fun c => c.isDigit || c == '.'))))))

/-- A text after an opening quote, as far as there is no other one. -/
def opened (quote : Char) : Pattern :=
  .seq (.one (· == quote)) (.many (.one (· != quote)))

/-- A text between two quotes. -/
def closed (quote : Char) : Pattern := .seq (opened quote) (.one (· == quote))

/-- A name of a variable, a field or a function. -/
def name : Pattern := .seq (.one startsName) (.many (.one continuesName))

/-! ## The table -/

/-- A sign. -/
def ofSymbol (s : Symbol) : Rule := ⟨.fixed (.symbol s), word s.spelling.toList⟩

/-- A keyword. -/
def ofKeyword (k : Keyword) : Rule := ⟨.fixed (.keyword k), wordAnyCase k.spelling.toList⟩

/-- A combinator as a word. -/
def ofCombinator (c : Combinator) : Rule :=
  ⟨.fixed (.combinator c), wordAnyCase c.keyword.toList⟩

/-- A combinator as a sign. -/
def ofSign (c : Combinator) (sign : List Char) : Rule := ⟨.fixed (.combinator c), word sign⟩

/-- A truth value. -/
def ofBool (b : Bool) : Rule :=
  ⟨.fixed (.bool b), wordAnyCase (boolText b).toList⟩

/-- All signs. -/
def symbols : List Symbol :=
  [.lparen, .rparen, .lbrace, .rbrace, .lbracket, .rbracket, .comma, .colon, .semicolon, .dot,
    .eq, .eqEq, .notEq, .lt, .gt, .ltEq, .gtEq, .plusEq, .minusEq, .plus, .minus, .star, .slash]

/-- All keywords. -/
def keywords : List Keyword := [.ifKw, .thenKw, .elseKw, .isKw, .inKw, .forKw, .eachKw]

/-- The rules of the language, fixed words first. -/
def table : List Rule :=
  symbols.map ofSymbol ++ keywords.map ofKeyword ++
    [ofCombinator .and, ofCombinator .or, ofCombinator .not,
      ofSign .and ['&', '&'], ofSign .or ['|', '|'], ofSign .not ['!'],
      ofBool true, ofBool false,
      ⟨.fixed .newline, lineBreak⟩,
      ⟨.number, number⟩, ⟨.malformedNumber, manyPoints⟩,
      ⟨.quotedText, closed '"'⟩, ⟨.quotedText, closed '\''⟩,
      ⟨.openText, opened '"'⟩, ⟨.openText, opened '\''⟩,
      ⟨.name, name⟩]

/-! ## The longest word -/

/-- Of two candidates the longer one, of equally long ones the first. -/
def better (a b : Lexeme × Nat) : Lexeme × Nat := if a.2 < b.2 then b else a

/-- The longest word at the front of a text and what it becomes; its length is zero if there is
none. -/
def longest (rules : List Rule) (cs : List Char) : Lexeme × Nat :=
  rules.foldl (fun best r => better best (r.lexeme, r.pattern.munch cs)) (.name, 0)

/-- Nor is the longest word of several rules. -/
theorem longest_le_length (rules : List Rule) (cs : List Char) :
    (longest rules cs).2 ≤ cs.length := by
  suffices h : ∀ best : Lexeme × Nat, best.2 ≤ cs.length →
      (rules.foldl (fun best r => better best (r.lexeme, r.pattern.munch cs)) best).2 ≤
        cs.length from h _ (Nat.zero_le _)
  induction rules with
  | nil => exact fun best h => h
  | cons r rules ih =>
      intro best h
      apply ih
      simp only [better]
      split
      · exact munch_le_length r.pattern cs
      · exact h

end Rule

end Edict

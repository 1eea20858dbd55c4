import Edict.Literal
import Edict.Number.Numeral
import Edict.Operator
import Edict.Source.Span

/-!
# Tokens

The words of the language.  A token is what stands in the text (`TokenKind`) and where
(`Span`).  The words `and`, `or`, `not` and their signs `&&`, `||`, `!` are the same tokens; a line
break is a token, because it separates statements.
-/

namespace Edict

/-- Words with a fixed meaning, other than the combinators and the truth values. -/
inductive Keyword where
  | ifKw
  | thenKw
  | elseKw
  | isKw
  | inKw
  | forKw
  | eachKw
deriving DecidableEq, Repr

/-- How a keyword is written. -/
def Keyword.spelling : Keyword → String
  | .ifKw => "if"
  | .thenKw => "then"
  | .elseKw => "else"
  | .isKw => "is"
  | .inKw => "in"
  | .forKw => "for"
  | .eachKw => "each"

/-- Signs. -/
inductive Symbol where
  | lparen
  | rparen
  | lbrace
  | rbrace
  | lbracket
  | rbracket
  | comma
  | colon
  | semicolon
  | dot
  | eq
  | eqEq
  | notEq
  | lt
  | gt
  | ltEq
  | gtEq
  | plusEq
  | minusEq
  | plus
  | minus
  | star
  | slash
deriving DecidableEq, Repr

/-- How a sign is written. -/
def Symbol.spelling : Symbol → String
  | .lparen => "("
  | .rparen => ")"
  | .lbrace => "\x7b"
  | .rbrace => "\x7d"
  | .lbracket => "["
  | .rbracket => "]"
  | .comma => ","
  | .colon => ":"
  | .semicolon => ";"
  | .dot => "."
  | .eq => "="
  | .eqEq => "=="
  | .notEq => "!="
  | .lt => "<"
  | .gt => ">"
  | .ltEq => "<="
  | .gtEq => ">="
  | .plusEq => "+="
  | .minusEq => "-="
  | .plus => "+"
  | .minus => "-"
  | .star => "*"
  | .slash => "/"

/-- What a token is. -/
inductive TokenKind where
  | text (value : String)
  | number (numeral : Numeral)
  | bool (value : Bool)
  | ident (name : String)
  | combinator (op : Combinator)
  | keyword (word : Keyword)
  | symbol (sign : Symbol)
  | newline
  | eof
deriving DecidableEq, Repr

namespace TokenKind

/-- How a token is named in messages. -/
def display : TokenKind → String
  | .text s => quoted s
  | .number n => Number.text n.value
  | .bool b => boolText b
  | .ident name => name
  | .combinator op => op.keyword
  | .keyword w => w.spelling
  | .symbol s => s.spelling
  | .newline => "line break"
  | .eof => "end of input"

/-- Whether two tokens are of one kind, whatever text, number or name they carry. -/
def sameKind : TokenKind → TokenKind → Bool
  | .text _, .text _ => true
  | .number _, .number _ => true
  | .bool a, .bool b => a == b
  | .ident _, .ident _ => true
  | .combinator a, .combinator b => a == b
  | .keyword a, .keyword b => a == b
  | .symbol a, .symbol b => a == b
  | .newline, .newline => true
  | .eof, .eof => true
  | _, _ => false

/-- Whether the token is a line break. -/
def isNewline : TokenKind → Bool
  | .newline => true
  | _ => false

/-- Whether the token is the end of the input. -/
def isEof : TokenKind → Bool
  | .eof => true
  | _ => false

/-- Whether the token separates statements. -/
def isSeparator : TokenKind → Bool
  | .newline => true
  | .symbol .semicolon => true
  | _ => false

/-- Whether the token ends a statement. -/
def endsStatement (k : TokenKind) : Bool := k.isSeparator || k.isEof

/-- The combinator that the token is. -/
def combinator? : TokenKind → Option Combinator
  | .combinator op => some op
  | _ => none

/-- The comparison that the token is; `is` is another spelling of `==`. -/
def compareOp? : TokenKind → Option CompareOp
  | .symbol .eqEq => some .eq
  | .keyword .isKw => some .eq
  | .symbol .notEq => some .notEq
  | .symbol .lt => some .lt
  | .symbol .ltEq => some .ltEq
  | .symbol .gt => some .gt
  | .symbol .gtEq => some .gtEq
  | .keyword .inKw => some .isIn
  | _ => none

/-- The arithmetic operator that the token is. -/
def arithOp? : TokenKind → Option ArithOp
  | .symbol .plus => some .add
  | .symbol .minus => some .sub
  | .symbol .star => some .mul
  | .symbol .slash => some .div
  | _ => none

/-- The assignment operator that the token is. -/
def assignOp? : TokenKind → Option AssignOp
  | .symbol .eq => some .set
  | .symbol .plusEq => some .add
  | .symbol .minusEq => some .sub
  | _ => none

/-- The number that the token is, if it carries a minus sign. -/
def negative? : TokenKind → Option Float
  | .number n => n.negative?
  | _ => none

/-- The item of an array that the token is: a text or a number. -/
def item? : TokenKind → Option Literal
  | .text s => some (.text s)
  | .number n => some (.number n.value)
  | _ => none

end TokenKind

/-- A word of a program and its place. -/
structure Token where
  kind : TokenKind
  span : Span
deriving DecidableEq, Repr

/-- The token that stands behind the last one of a list. -/
def Token.eof : Token := ⟨.eof, Span.nowhere⟩

/-- The first token of a list; an empty list reads as the end of the input. -/
def Token.peek (ts : List Token) : Token := ts.head?.getD Token.eof

/-- The list from its first token that is no line break. -/
def Token.skipNewlines (ts : List Token) : List Token := ts.dropWhile (·.kind.isNewline)

/-- The list from its first token that separates no statements. -/
def Token.skipSeparators (ts : List Token) : List Token := ts.dropWhile (·.kind.isSeparator)

/-- Skipping line breaks makes no list longer. -/
theorem Token.length_skipNewlines_le (ts : List Token) :
    (Token.skipNewlines ts).length ≤ ts.length :=
  (List.dropWhile_suffix _).length_le

/-- What is behind the first token that is no line break is shorter than the list. -/
theorem Token.length_lt_of_skipNewlines {ts rest : List Token} {t : Token}
    (h : Token.skipNewlines ts = t :: rest) : rest.length < ts.length := by
  have hle := Token.length_skipNewlines_le ts
  rw [h] at hle
  exact hle

/-- Skipping separators makes no list longer. -/
theorem Token.length_skipSeparators_le (ts : List Token) :
    (Token.skipSeparators ts).length ≤ ts.length :=
  (List.dropWhile_suffix _).length_le

/-- What is behind the first token that is no separator is shorter than the list. -/
theorem Token.length_lt_of_skipSeparators {ts rest : List Token} {t : Token}
    (h : Token.skipSeparators ts = t :: rest) : rest.length < ts.length := by
  have hle := Token.length_skipSeparators_le ts
  rw [h] at hle
  exact hle

end Edict

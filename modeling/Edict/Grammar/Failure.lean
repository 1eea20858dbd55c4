import Edict.Parsed
import Edict.Token.Basic

/-!
# Why a token list is no program

The first mistake ends reading.  A `Failure` says what is wrong and from where on the tokens are
unused; its first unused token is the one that the mistake is reported at.
-/

namespace Edict

/-- What the grammar asks for at some place. -/
inductive Expected where
  | token (kind : TokenKind)
  | identifier
  | statement
  | value
  | thenWord
  | assignment
  | loopHeader
  | eachSource
  | arrayItem
  | arrayEnd
  | entryName
  | objectEnd
  | argumentsEnd
  | statementEnd
deriving DecidableEq, Repr

/-- What is expected, in words. -/
def Expected.text : Expected → String
  | .token k => "`" ++ k.display ++ "`"
  | .identifier => "identifier"
  | .statement => "statement"
  | .value => "value"
  | .thenWord => "`then`"
  | .assignment => "assignment operator"
  | .loopHeader => "`(` or `each` after `for`"
  | .eachSource => "array literal or reference after `each`"
  | .arrayItem => "string or number in array literal"
  | .arrayEnd => "`,` or `]` in array literal"
  | .entryName => "property name string"
  | .objectEnd => "`,` or `\x7d` in object literal"
  | .argumentsEnd => "`,` or `)` in call arguments"
  | .statementEnd => "end of statement"

/-- The side on which a combinator has no operand. -/
inductive Side where
  | left
  | right
deriving DecidableEq, Repr

/-- The name of a side. -/
def Side.text : Side → String
  | .left => "left"
  | .right => "right"

/-- What is wrong. -/
inductive Problem where
  | expected (what : Expected)
  /-- A closing parenthesis that nothing opened. -/
  | mismatchedParentheses
  /-- Two items of an array without a comma between them. -/
  | missingComma
  | missingOperand (op : Combinator) (side : Side)
deriving DecidableEq, Repr

/-- A problem in words, given the token at which it is reported. -/
def Problem.message (found : TokenKind) : Problem → String
  | .expected what => "expected " ++ what.text ++ ", found " ++ found.display
  | .mismatchedParentheses => "mismatched parentheses"
  | .missingComma =>
      "expected `,` or `]` in array literal, found " ++ found.display ++ " (missing comma?)"
  | .missingOperand op side =>
      "`" ++ op.keyword ++ "` is missing its " ++ side.text ++ " operand"

/-- A mistake in a token list, with the tokens from the offending one on. -/
structure Failure where
  problem : Problem
  rest : List Token
deriving DecidableEq, Repr

namespace Failure

/-- The token at which the mistake is reported. -/
def token (f : Failure) : Token := Token.peek f.rest

/-- The mistake in words. -/
def message (f : Failure) : String := f.problem.message f.token.kind

/-- Where the offending token stands. -/
def span (f : Failure) : Span := f.token.span

/-- Something else was expected. -/
def expecting (what : Expected) (rest : List Token) : Failure := ⟨.expected what, rest⟩

end Failure

namespace Grammar

/-- The result of reading something of type `α` that leaves fewer than `bound` tokens. -/
abbrev Outcome (α : Type) (bound : Nat) := Except Failure (Parsed Token α bound)

/-- Readers that use at least one token when they succeed. -/
abbrev Reader (α : Type) := (ts : List Token) → Outcome α ts.length

/-- Reads a sign. -/
def sign (s : Symbol) : Reader Unit
  | ⟨.symbol t, span⟩ :: rest =>
      if t = s then .ok ⟨(), rest, Nat.lt_succ_self _⟩
      else .error (.expecting (.token (.symbol s)) (⟨.symbol t, span⟩ :: rest))
  | ts => .error (.expecting (.token (.symbol s)) ts)

end Grammar

end Edict

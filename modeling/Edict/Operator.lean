/-!
# Operators

The four families of operators of the language and how each is written.  Arithmetic has a single
level of precedence; of the combinators, which join truth values, `and` binds tighter than `or` and
`not`.
-/

namespace Edict

/-- Arithmetic on values. -/
inductive ArithOp where
  | add
  | sub
  | mul
  | div
deriving DecidableEq, Repr

/-- How an arithmetic operator is written. -/
def ArithOp.symbol : ArithOp → String
  | .add => "+"
  | .sub => "-"
  | .mul => "*"
  | .div => "/"

/-- Comparison of two values; `isIn` is membership of the left one in the right one. -/
inductive CompareOp where
  | eq
  | notEq
  | lt
  | ltEq
  | gt
  | gtEq
  | isIn
deriving DecidableEq, Repr

/-- How a comparison is written. -/
def CompareOp.symbol : CompareOp → String
  | .eq => "=="
  | .notEq => "!="
  | .lt => "<"
  | .ltEq => "<="
  | .gt => ">"
  | .gtEq => ">="
  | .isIn => "in"

/-- What joins two conditions.  `a not b` holds if `a` does and `b` does not. -/
inductive Combinator where
  | and
  | or
  | not
deriving DecidableEq, Repr

/-- How a combinator is written. -/
def Combinator.keyword : Combinator → String
  | .and => "and"
  | .or => "or"
  | .not => "not"

/-- How tightly a combinator binds. -/
def Combinator.precedence : Combinator → Nat
  | .and => 2
  | .or => 1
  | .not => 1

/-- The three ways to assign. -/
inductive AssignOp where
  | set
  | add
  | sub
deriving DecidableEq, Repr

/-- How an assignment is written. -/
def AssignOp.symbol : AssignOp → String
  | .set => "="
  | .add => "+="
  | .sub => "-="

/-- The arithmetic that an assignment applies to the old value, if any. -/
def AssignOp.arith? : AssignOp → Option ArithOp
  | .set => none
  | .add => some .add
  | .sub => some .sub

end Edict

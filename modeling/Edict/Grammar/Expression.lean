import Edict.Expr.Basic
import Edict.Grammar.Failure

/-!
# Reading expressions

Readers for everything that may stand in an expression.

* A *primary* is a literal, a call, a reference or an object.
* An *arithmetic chain* joins primaries; there is one level of precedence and chains nest on the
  left.  A negative number right after an operand is subtracted from it, and a chain of `+` that
  begins with a text constant is collected into one concatenation.
* A *term* is a condition in parentheses, or one or two arithmetic chains around a comparison.
* A *condition* joins terms by combinators according to their precedence.
* An *expression* is what may be assigned, passed or used as an index: an arithmetic chain, read
  again as a condition if a comparison or a combinator follows it.

What stands inside brackets is read by `Nested` readers, which know only lists shorter than the one
at hand.  Each reader is defined from them, and `nested` ties the knot by recursion on the length.
-/

namespace Edict

namespace Grammar

/-- Readers for what stands inside brackets.  They take lists of fewer than `limit` tokens. -/
structure Nested (limit : Nat) where
  expression : (ts : List Token) → ts.length < limit → Outcome Expr ts.length
  condition : (ts : List Token) → ts.length < limit → Outcome Expr ts.length

variable {limit : Nat}

/-! ## Primaries -/

/-- The steps of a reference, as far as there are any: `.name` and `[key]`. -/
def steps (inner : Nested limit) (ts : List Token) (h : ts.length ≤ limit) :
    Outcome (List Step) (ts.length + 1) :=
  match ts, h with
  | ⟨.symbol .dot, _⟩ :: ⟨.ident name, _⟩ :: rest, h => do
      let more ← steps inner rest (Nat.le_of_succ_le (Nat.le_of_succ_le h))
      return more.map (.field name :: ·) (Nat.le_add_right _ 2)
  | ⟨.symbol .dot, _⟩ :: rest, _ => .error (.expecting .identifier rest)
  | ⟨.symbol .lbracket, _⟩ :: rest, h => do
      let key ← inner.expression rest h
      let close ← sign .rbracket key.rest
      let more ← steps inner close.rest (close.le (key.le (Nat.le_of_succ_le h)))
      return more.map (.index key.value :: ·) (Nat.succ_le_succ (close.le (key.le (Nat.le_succ _))))
  | ts, _ => .ok (.untouched [] ts)
termination_by ts.length
decreasing_by
  · exact Nat.lt_of_succ_lt (Nat.lt_succ_self _)
  · exact close.lt (key.le (Nat.le_succ _))

/-- The arguments of a call and the closing parenthesis.  Line breaks may stand around them, and a
comma after the last one. -/
def arguments (inner : Nested limit) (ts : List Token) (h : ts.length < limit) :
    Outcome (List Expr) ts.length :=
  match ts, h with
  | ⟨.symbol .rparen, _⟩ :: rest, _ => .ok ⟨[], rest, Nat.lt_succ_self _⟩
  | ts, h => do
      let arg ← inner.expression ts h
      match hr : Token.skipNewlines arg.rest with
      | ⟨.symbol .comma, _⟩ :: rest =>
          have hrest : (Token.skipNewlines rest).length < ts.length :=
            Nat.lt_of_le_of_lt (Token.length_skipNewlines_le rest)
              (Nat.lt_trans (Token.length_lt_of_skipNewlines hr) arg.shorter)
          let more ← arguments inner (Token.skipNewlines rest) (Nat.lt_trans hrest h)
          return more.map (arg.value :: ·) (Nat.le_of_lt hrest)
      | ⟨.symbol .rparen, _⟩ :: rest =>
          return ⟨[arg.value], rest,
            Nat.lt_trans (Token.length_lt_of_skipNewlines hr) arg.shorter⟩
      | other => throw (.expecting .argumentsEnd other)
termination_by ts.length
decreasing_by exact hrest

/-- The entries of an object and the closing brace, under the same rules as arguments. -/
def entries (inner : Nested limit) (ts : List Token) (h : ts.length < limit) :
    Outcome (List (String × Expr)) ts.length :=
  match ts, h with
  | ⟨.symbol .rbrace, _⟩ :: rest, _ => .ok ⟨[], rest, Nat.lt_succ_self _⟩
  | ⟨.text name, _⟩ :: rest, h => do
      let colon ← sign .colon rest
      let value ← inner.expression colon.rest (colon.lt (Nat.le_of_lt (Nat.lt_of_succ_lt h)))
      have hvalue : value.rest.length ≤ rest.length := value.le (colon.le (Nat.le_refl _))
      match hr : Token.skipNewlines value.rest with
      | ⟨.symbol .comma, _⟩ :: after =>
          have hafter : (Token.skipNewlines after).length < rest.length :=
            Nat.lt_of_le_of_lt (Token.length_skipNewlines_le after)
              (Nat.lt_of_lt_of_le (Token.length_lt_of_skipNewlines hr) hvalue)
          let more ← entries inner (Token.skipNewlines after)
            (Nat.lt_trans hafter (Nat.lt_of_succ_lt h))
          return more.map ((name, value.value) :: ·) (Nat.le_succ_of_le (Nat.le_of_lt hafter))
      | ⟨.symbol .rbrace, _⟩ :: after =>
          return ⟨[(name, value.value)], after,
            Nat.lt_succ_of_lt (Nat.lt_of_lt_of_le (Token.length_lt_of_skipNewlines hr) hvalue)⟩
      | other => throw (.expecting .objectEnd other)
  | ts, _ => .error (.expecting .entryName ts)
termination_by ts.length
decreasing_by exact Nat.lt_succ_of_lt hafter

/-- A literal, a call, a reference or an object. -/
def primary (inner : Nested limit) (ts : List Token) (h : ts.length ≤ limit) :
    Outcome Expr ts.length :=
  match ts, h with
  | ⟨.text s, _⟩ :: rest, _ => .ok ⟨.lit (.text s), rest, Nat.lt_succ_self _⟩
  | ⟨.number n, _⟩ :: rest, _ => .ok ⟨.lit (.number n.value), rest, Nat.lt_succ_self _⟩
  | ⟨.bool b, _⟩ :: rest, _ => .ok ⟨.lit (.bool b), rest, Nat.lt_succ_self _⟩
  | ⟨.ident f, _⟩ :: ⟨.symbol .lparen, _⟩ :: rest, h => do
      have hskip := Token.length_skipNewlines_le rest
      let args ← arguments inner (Token.skipNewlines rest)
        (Nat.lt_of_le_of_lt hskip (Nat.lt_of_succ_lt h))
      return args.map (.call f ·) (Nat.le_succ_of_le (Nat.le_succ_of_le hskip))
  | ⟨.ident root, _⟩ :: rest, h => do
      let path ← steps inner rest (Nat.le_of_succ_le h)
      return path.map (fun steps => (Reference.ofPath root steps).toExpr) (Nat.le_refl _)
  | ⟨.symbol .lbrace, _⟩ :: rest, h => do
      have hskip := Token.length_skipNewlines_le rest
      let items ← entries inner (Token.skipNewlines rest) (Nat.lt_of_le_of_lt hskip h)
      return items.map (.object ·) (Nat.le_succ_of_le hskip)
  | ts, _ => .error (.expecting .value ts)

/-! ## Arithmetic chains -/

/-- The further parts of a concatenation: `+` and a primary, as often as they stand there. -/
def concatParts (inner : Nested limit) (ts : List Token) (h : ts.length ≤ limit) :
    Outcome (List Expr) (ts.length + 1) :=
  match ts, h with
  | ⟨.symbol .plus, _⟩ :: rest, h => do
      let part ← primary inner rest (Nat.le_of_succ_le h)
      let more ← concatParts inner part.rest (part.le (Nat.le_of_succ_le h))
      return more.map (part.value :: ·) (Nat.succ_le_succ (part.le (Nat.le_succ _)))
  | ts, _ => .ok (.untouched [] ts)
termination_by ts.length
decreasing_by exact part.lt (Nat.le_succ _)

/-- Goes on with an arithmetic chain whose value so far is `left`. -/
def arithFrom (inner : Nested limit) (left : Expr) (ts : List Token) (h : ts.length ≤ limit) :
    Outcome Expr (ts.length + 1) :=
  match ts, h with
  | [], _ => .ok (.untouched left [])
  | t :: rest, h =>
      match t.kind.arithOp?, t.kind.negative? with
      | some op, _ => do
          let right ← primary inner rest (Nat.le_of_succ_le h)
          let chain ← arithFrom inner (.arith left op right.value) right.rest
            (right.le (Nat.le_of_succ_le h))
          return chain.map id (Nat.succ_le_succ (right.le (Nat.le_succ _)))
      | none, some x => do
          let chain ← arithFrom inner (.arith left .sub (.lit (.number (-x)))) rest
            (Nat.le_of_succ_le h)
          return chain.map id (Nat.le_succ _)
      | none, none => .ok (.untouched left (t :: rest))
termination_by ts.length
decreasing_by
  · exact right.lt (Nat.le_succ _)
  · exact Nat.lt_succ_self _

/-- Whether a concatenation begins: `first` is a text constant and a `+` follows. -/
def beginsConcat (first : Expr) (rest : List Token) : Bool :=
  first.isText && match rest with
    | ⟨.symbol .plus, _⟩ :: _ => true
    | _ => false

/-- An arithmetic chain. -/
def arith (inner : Nested limit) (ts : List Token) (h : ts.length ≤ limit) :
    Outcome Expr ts.length := do
  let first ← primary inner ts h
  if beginsConcat first.value first.rest then
    let parts ← concatParts inner first.rest (first.le h)
    let chain ← arithFrom inner (.concat (first.value :: parts.value)) parts.rest
      (parts.le_of_succ (first.le h))
    return chain.map id (Nat.lt_of_le_of_lt (parts.le_of_succ (Nat.le_refl _)) first.shorter)
  else
    let chain ← arithFrom inner first.value first.rest (first.le h)
    return chain.map id first.shorter

/-! ## Conditions -/

/-- Whether no operand can begin with the first token of the list. -/
def endsOperand (ts : List Token) : Bool :=
  match (Token.peek ts).kind with
  | .keyword .thenKw => true
  | .symbol .rparen => true
  | .symbol .comma => true
  | .combinator _ => true
  | k => k.endsStatement

/-- A condition in parentheses, a comparison, or a value. -/
def term (inner : Nested limit) (ts : List Token) (h : ts.length ≤ limit) :
    Outcome Expr ts.length :=
  match ts, h with
  | ⟨.symbol .lparen, _⟩ :: rest, h => do
      let body ← inner.condition rest h
      let close ← sign .rparen body.rest
      return close.map (fun _ => body.value.parenthesize) (body.le (Nat.le_succ _))
  | ⟨.combinator op, span⟩ :: rest, _ =>
      .error ⟨.missingOperand op .left, ⟨.combinator op, span⟩ :: rest⟩
  | ts, h => do
      let left ← arith inner ts h
      match hr : left.rest with
      | [] => return left
      | t :: rest =>
          match t.kind.compareOp? with
          | none => return left
          | some op =>
              let right ← arith inner rest (Nat.le_of_lt (left.lt_of_rest_eq hr h))
              return right.map (.compare left.value op ·)
                (Nat.le_of_lt (left.lt_of_rest_eq hr (Nat.le_refl _)))

/-- Goes on with a condition whose value so far is `left`, through all combinators that bind at
least as tightly as `level`. -/
def joinFrom (inner : Nested limit) (level : Nat) (left : Expr) (ts : List Token)
    (h : ts.length ≤ limit) : Outcome Expr (ts.length + 1) :=
  match ts, h with
  | ⟨.combinator op, span⟩ :: rest, h =>
      if op.precedence < level then
        .ok (.untouched left (⟨.combinator op, span⟩ :: rest))
      else if endsOperand rest then
        .error ⟨.missingOperand op .right, ⟨.combinator op, span⟩ :: rest⟩
      else do
        let first ← term inner rest (Nat.le_of_succ_le h)
        let right ← joinFrom inner (op.precedence + 1) first.value first.rest
          (first.le (Nat.le_of_succ_le h))
        have hright : right.rest.length < rest.length :=
          Nat.lt_of_le_of_lt (right.le_of_succ (Nat.le_refl _)) first.shorter
        let whole ← joinFrom inner level (.joined left op right.value) right.rest
          (Nat.le_of_lt (Nat.lt_trans hright h))
        return whole.map id (Nat.le_succ_of_le (Nat.le_succ_of_le hright))
  | ts, _ => .ok (.untouched left ts)
termination_by ts.length
decreasing_by
  · exact first.lt (Nat.le_succ _)
  · exact Nat.lt_succ_of_lt hright

/-- Terms joined by combinators. -/
def condition (inner : Nested limit) (ts : List Token) (h : ts.length ≤ limit) :
    Outcome Expr ts.length := do
  let first ← term inner ts h
  let whole ← joinFrom inner 1 first.value first.rest (first.le h)
  return whole.map id first.shorter

/-! ## Expressions -/

/-- Whether the list begins with a comparison or a combinator. -/
def atJoin (ts : List Token) : Bool :=
  let k := (Token.peek ts).kind
  k.compareOp?.isSome || k.combinator?.isSome

/-- Whether the list begins with an opening parenthesis. -/
def atParen : List Token → Bool
  | ⟨.symbol .lparen, _⟩ :: _ => true
  | _ => false

/-- What may be assigned, passed or used as an index. -/
def expression (inner : Nested limit) (ts : List Token) (h : ts.length ≤ limit) :
    Outcome Expr ts.length :=
  if atParen ts then condition inner ts h
  else do
    let value ← arith inner ts h
    if atJoin value.rest then condition inner ts h else return value

/-! ## The knot -/

/-- The readers for what stands inside brackets. -/
def nested (limit : Nat) : Nested limit :=
  { expression := fun ts _ => expression (nested ts.length) ts (Nat.le_refl _)
    condition := fun ts _ => condition (nested ts.length) ts (Nat.le_refl _) }
termination_by limit

/-- Reads an expression. -/
def readExpression : Reader Expr := fun ts => expression (nested ts.length) ts (Nat.le_refl _)

/-- Reads a condition. -/
def readCondition : Reader Expr := fun ts => condition (nested ts.length) ts (Nat.le_refl _)

/-- Reads a term. -/
def readTerm : Reader Expr := fun ts => term (nested ts.length) ts (Nat.le_refl _)

/-- Reads the steps of a reference. -/
def readSteps (ts : List Token) : Outcome (List Step) (ts.length + 1) :=
  steps (nested ts.length) ts (Nat.le_refl _)

/-- Reads the arguments of a call. -/
def readArguments : Reader (List Expr) := fun ts =>
  arguments (nested (ts.length + 1)) ts (Nat.lt_succ_self _)

end Grammar

end Edict

import Edict.Grammar.Expression
import Edict.Program

/-!
# Reading statements

Branches, loops, assignments and calls, their bodies, and whole programs.

A body is one or more statements with single semicolons between them; a semicolon that no statement
follows ends the body.  Line breaks may stand before the first statement of a body and before
`else`, but a line break after a statement ends all bodies that are open there.  As with
expressions, a reader of statements is given a reader for the statements of its bodies, and
`readStatement` ties the knot.
-/

namespace Edict

namespace Grammar

/-! ## Parts of statements -/

/-- The items of an array after its first bracket, up to and including the closing one. -/
def arrayItems (ts : List Token) : Outcome (List Literal) ts.length :=
  match ts with
  | [] => .error (.expecting .arrayItem [])
  | t :: rest =>
      match t.kind.item? with
      | none => .error (.expecting .arrayItem (t :: rest))
      | some item =>
          match hr : Token.skipNewlines rest with
          | ⟨.symbol .comma, _⟩ :: after => do
              have hafter : (Token.skipNewlines after).length < rest.length :=
                Nat.lt_of_le_of_lt (Token.length_skipNewlines_le after)
                  (Token.length_lt_of_skipNewlines hr)
              let more ← arrayItems (Token.skipNewlines after)
              return more.map (item :: ·) (Nat.le_succ_of_le (Nat.le_of_lt hafter))
          | ⟨.symbol .rbracket, _⟩ :: after =>
              .ok ⟨[item], after, Nat.lt_succ_of_lt (Token.length_lt_of_skipNewlines hr)⟩
          | other =>
              if (Token.peek other).kind.item?.isSome then .error ⟨.missingComma, other⟩
              else .error (.expecting .arrayEnd other)
termination_by ts.length
decreasing_by exact Nat.lt_succ_of_lt hafter

/-- An array of texts and numbers, from its opening bracket on. -/
def arrayLiteral : Reader (List Literal) := fun ts => do
  let start ← sign .lbracket ts
  match hr : Token.skipNewlines start.rest with
  | ⟨.symbol .rbracket, _⟩ :: rest =>
      return ⟨[], rest, Nat.lt_trans (Token.length_lt_of_skipNewlines hr) start.shorter⟩
  | _ =>
      let items ← arrayItems (Token.skipNewlines start.rest)
      return items.map id
        (Nat.le_trans (Token.length_skipNewlines_le start.rest) (start.le (Nat.le_refl _)))

/-- A variable with the steps into its value. -/
def reference : Reader Reference := fun ts =>
  match ts with
  | ⟨.ident root, _⟩ :: rest => do
      let path ← readSteps rest
      return ⟨Reference.ofPath root path.value, path.rest, path.shorter⟩
  | ts => .error (.expecting .identifier ts)

/-- A call, from its name on. -/
def call : Reader (String × List Expr) := fun ts =>
  match ts with
  | ⟨.ident f, _⟩ :: rest => do
      let start ← sign .lparen rest
      let args ← readArguments (Token.skipNewlines start.rest)
      return args.map (f, ·) (Nat.le_succ_of_le
        (Nat.le_trans (Token.length_skipNewlines_le start.rest) (start.le (Nat.le_refl _))))
  | ts => .error (.expecting .identifier ts)

/-- An assignment. -/
def assignment : Reader Stmt := fun ts => do
  let target ← reference ts
  match hr : target.rest with
  | [] => throw (.expecting .assignment [])
  | t :: rest =>
      match t.kind.assignOp? with
      | none => throw (.expecting .assignment (t :: rest))
      | some op =>
          let value ← readExpression rest
          return value.map (.assign target.value op ·)
            (Nat.le_of_lt (target.lt_of_rest_eq hr (Nat.le_refl _)))

/-! ## Statements and bodies -/

/-- A reader of statements for lists of fewer than `limit` tokens. -/
abbrev Inner (limit : Nat) := (ts : List Token) → ts.length < limit → Outcome Stmt ts.length

variable {limit : Nat}

/-- Whether a statement may begin here. -/
def startsStatement (ts : List Token) : Bool :=
  match (Token.peek ts).kind with
  | .keyword .ifKw => true
  | .keyword .forKw => true
  | .ident _ => true
  | _ => false

/-- The further statements of a body, each after one semicolon. -/
def bodyFrom (inner : Inner limit) (ts : List Token) (h : ts.length ≤ limit) :
    Outcome (List Stmt) (ts.length + 1) :=
  match ts, h with
  | ⟨.symbol .semicolon, _⟩ :: rest, h =>
      if startsStatement rest then do
        let s ← inner rest h
        let more ← bodyFrom inner s.rest (s.le (Nat.le_of_succ_le h))
        return more.map (s.value :: ·) (Nat.succ_le_succ (s.le (Nat.le_succ _)))
      else .ok ⟨[], rest, Nat.lt_succ_of_lt (Nat.lt_succ_self _)⟩
  | ts, _ => .ok (.untouched [] ts)
termination_by ts.length
decreasing_by exact s.lt (Nat.le_succ _)

/-- The body of a branch or a loop. -/
def body (inner : Inner limit) (ts : List Token) (h : ts.length < limit) :
    Outcome (List Stmt) ts.length := do
  have hskip := Token.length_skipNewlines_le ts
  let first ← inner (Token.skipNewlines ts) (Nat.lt_of_le_of_lt hskip h)
  let more ← bodyFrom inner first.rest (first.le (Nat.le_trans hskip (Nat.le_of_lt h)))
  return more.map (first.value :: ·) (first.lt hskip)

/-- The rest of a branch after `if`. -/
def branch (inner : Inner limit) (ts : List Token) (h : ts.length < limit) :
    Outcome Stmt ts.length := do
  let test ← readCondition ts
  match hr : test.rest with
  | ⟨.keyword .thenKw, _⟩ :: rest =>
      have hrest : rest.length < ts.length := test.lt_of_rest_eq hr (Nat.le_refl _)
      let thenBody ← body inner rest (Nat.lt_trans hrest h)
      match he : Token.skipNewlines thenBody.rest with
      | ⟨.keyword .elseKw, _⟩ :: after =>
          have hafter : after.length < ts.length :=
            Nat.lt_trans (Token.length_lt_of_skipNewlines he) (thenBody.lt (Nat.le_of_lt hrest))
          let elseBody ← body inner after (Nat.lt_trans hafter h)
          return elseBody.map (.branch test.value thenBody.value <| some ·) (Nat.le_of_lt hafter)
      | _ => return thenBody.map (.branch test.value · none) (Nat.le_of_lt hrest)
  | ⟨.symbol .rparen, span⟩ :: rest =>
      throw ⟨.mismatchedParentheses, ⟨.symbol .rparen, span⟩ :: rest⟩
  | other => throw (.expecting .thenWord other)

/-- The rest of a loop after `for`. -/
def loop (inner : Inner limit) (ts : List Token) (h : ts.length < limit) :
    Outcome Stmt ts.length :=
  match ts, h with
  | ⟨.keyword .eachKw, _⟩ :: ⟨.symbol .lbracket, span⟩ :: rest, h => do
      let items ← arrayLiteral (⟨.symbol .lbracket, span⟩ :: rest)
      let inside ← body inner items.rest (items.lt (Nat.le_of_succ_le (Nat.le_of_lt h)))
      return inside.map (.each (.literals items.value) ·) (items.le (Nat.le_succ _))
  | ⟨.keyword .eachKw, _⟩ :: ⟨.ident root, span⟩ :: rest, h => do
      let place ← reference (⟨.ident root, span⟩ :: rest)
      let inside ← body inner place.rest (place.lt (Nat.le_of_succ_le (Nat.le_of_lt h)))
      return inside.map (.each (.reference place.value) ·) (place.le (Nat.le_succ _))
  | ⟨.keyword .eachKw, _⟩ :: rest, _ => .error (.expecting .eachSource rest)
  | ⟨.symbol .lparen, _⟩ :: rest, h => do
      let bound ← readExpression rest
      let close ← sign .rparen bound.rest
      have hclose : close.rest.length ≤ rest.length := close.le (bound.le (Nat.le_refl _))
      let inside ← body inner close.rest (Nat.lt_of_le_of_lt hclose (Nat.lt_of_succ_lt h))
      return inside.map (.count bound.value ·) (Nat.le_succ_of_le hclose)
  | ts, _ => .error (.expecting .loopHeader ts)

/-- A statement. -/
def statement (inner : Inner limit) (ts : List Token) (h : ts.length ≤ limit) :
    Outcome Stmt ts.length :=
  match ts, h with
  | ⟨.keyword .ifKw, _⟩ :: rest, h => do
      let s ← branch inner rest h
      return s.map id (Nat.le_succ _)
  | ⟨.keyword .forKw, _⟩ :: rest, h => do
      let s ← loop inner rest h
      return s.map id (Nat.le_succ _)
  | ⟨.ident f, s⟩ :: ⟨.symbol .lparen, t⟩ :: rest, _ => do
      let c ← call (⟨.ident f, s⟩ :: ⟨.symbol .lparen, t⟩ :: rest)
      return c.map (fun (f, args) => .call f args) (Nat.le_refl _)
  | ⟨.ident root, span⟩ :: rest, _ => assignment (⟨.ident root, span⟩ :: rest)
  | ts, _ => .error (.expecting .statement ts)

/-- Reads a statement. -/
def readStatement (ts : List Token) : Outcome Stmt ts.length :=
  statement (fun inside _ => readStatement inside) ts (Nat.le_refl _)
termination_by ts.length

/-! ## Programs -/

/-- Whether a statement may end before the given tokens. -/
def statementEnd (ts : List Token) : Except Failure Unit :=
  match (Token.peek ts).kind with
  | .symbol .rparen => .error ⟨.mismatchedParentheses, ts⟩
  | k => if k.endsStatement then .ok () else .error (.expecting .statementEnd ts)

/-- The program that a token list is, up to its first `eof`. -/
def readProgram (ts : List Token) : Except Failure Program :=
  match hr : Token.skipSeparators ts with
  | [] => .ok []
  | ⟨.eof, _⟩ :: _ => .ok []
  | t :: rest => do
      have : rest.length < ts.length := Token.length_lt_of_skipSeparators hr
      let s ← readStatement (t :: rest)
      statementEnd s.rest
      let more ← readProgram s.rest
      return s.value :: more
termination_by ts.length
decreasing_by exact s.lt this

end Grammar

end Edict

import Edict.Expr.Basic

/-!
# Programs

Statements and their bodies.  A program is a list of statements, and so is the body of a branch or a
loop.
-/

namespace Edict

/-- What a loop over elements runs through. -/
inductive Source where
  | literals (items : List Literal)
  | reference (place : Reference)

/-- A statement. -/
inductive Stmt where
  | assign (target : Reference) (op : AssignOp) (value : Expr)
  | branch (condition : Expr) (thenBody : List Stmt) (elseBody : Option (List Stmt))
  /-- A loop that runs as often as a number says. -/
  | count (limit : Expr) (body : List Stmt)
  /-- A loop that runs once per element. -/
  | each (source : Source) (body : List Stmt)
  /-- A call for its effect. -/
  | call (function : String) (args : List Expr)

/-- A program. -/
abbrev Program := List Stmt

/-! ## Equal trees -/

/-- Equality of lists of literals. -/
def Literal.sameAll : List Literal → List Literal → Bool
  | [], [] => true
  | a :: as, b :: bs => a.same b && Literal.sameAll as bs
  | _, _ => false

/-- Equality of the sources of loops. -/
def Source.same : Source → Source → Bool
  | .literals as, .literals bs => Literal.sameAll as bs
  | .reference r, .reference s => r.same s
  | _, _ => false

mutual

/-- Whether two statements are equal trees. -/
def Stmt.same : Stmt → Stmt → Bool
  | .assign r o e, .assign s p f => r.same s && o == p && e.same f
  | .branch c t e, .branch d u f => c.same d && Stmt.sameAll t u && Stmt.sameElse e f
  | .count n b, .count m c => n.same m && Stmt.sameAll b c
  | .each s b, .each t c => s.same t && Stmt.sameAll b c
  | .call f as, .call g bs => f == g && Expr.sameAll as bs
  | _, _ => false

/-- Equality of bodies. -/
def Stmt.sameAll : List Stmt → List Stmt → Bool
  | [], [] => true
  | s :: ss, t :: ts => s.same t && Stmt.sameAll ss ts
  | _, _ => false

/-- Equality of the bodies after `else`. -/
def Stmt.sameElse : Option (List Stmt) → Option (List Stmt) → Bool
  | none, none => true
  | some b, some c => Stmt.sameAll b c
  | _, _ => false

end

/-- Whether two programs are equal trees. -/
def Program.same (p q : Program) : Bool := Stmt.sameAll p q

end Edict

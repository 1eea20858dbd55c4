import Edict.Literal
import Edict.Operator

/-!
# Expressions

The trees of the language's expressions.  A reference is a name, or a *property*: a name with the
steps that lead from its value into a list or map.  A *group* has a left operand, and a combinator
with a right operand if it joins two; it records whether it stands in parentheses of its own.  A
group of a single operand is that operand in parentheses (`Expr.paren`).

The trees as such are looser than what the readers make of a text: a property may lack its steps, a
group its right operand or its parentheses.  Which trees can be read is a matter of theorems.
-/

namespace Edict

mutual

/-- An expression. -/
inductive Expr where
  | lit (value : Literal)
  /-- A variable. -/
  | ident (name : String)
  /-- A place inside the value of a variable. -/
  | property (base : String) (steps : List Step)
  | call (function : String) (args : List Expr)
  | object (entries : List (String × Expr))
  /-- One arithmetic step; longer chains nest on the left. -/
  | arith (left : Expr) (op : ArithOp) (right : Expr)
  /-- A chain of additions that a text begins. -/
  | concat (parts : List Expr)
  | compare (left : Expr) (op : CompareOp) (right : Expr)
  /-- Two operands and their combinator, or one operand that stands for itself. -/
  | group (left : Expr) (combinator : Option Combinator) (right : Option Expr)
      (parenthesized : Bool)

/-- A step into a value. -/
inductive Step where
  | field (name : String)
  | index (key : Expr)

end

/-- A place that can be assigned to. -/
inductive Reference where
  | ident (name : String)
  | property (base : String) (steps : List Step)

namespace Reference

/-- The variable of a reference. -/
def root : Reference → String
  | .ident name => name
  | .property base _ => base

/-- The steps from the variable to the place; a name has none. -/
def steps : Reference → List Step
  | .ident _ => []
  | .property _ steps => steps

/-- The reference that a name and the steps written after it are: the name itself if there are no
steps. -/
def ofPath (root : String) (steps : List Step) : Reference :=
  if steps.isEmpty then .ident root else .property root steps

/-- A reference as an expression. -/
def toExpr : Reference → Expr
  | .ident name => .ident name
  | .property base steps => .property base steps

@[simp] theorem ofPath_nil (x : String) : ofPath x [] = .ident x := rfl

@[simp] theorem ofPath_cons (x : String) (s : Step) (ss : List Step) :
    ofPath x (s :: ss) = .property x (s :: ss) := rfl

@[simp] theorem root_ofPath (x : String) (ss : List Step) : (ofPath x ss).root = x := by
  cases ss <;> rfl

@[simp] theorem steps_ofPath (x : String) (ss : List Step) : (ofPath x ss).steps = ss := by
  cases ss <;> rfl

end Reference

namespace Expr

/-- One operand in parentheses. -/
@[match_pattern] abbrev paren (e : Expr) : Expr := .group e none none true

/-- Two operands and their combinator, without parentheses. -/
@[match_pattern] abbrev joined (left : Expr) (op : Combinator) (right : Expr) : Expr :=
  .group left (some op) (some right) false

/-- The expression as it stands when it is put in parentheses: those of a group are its own. -/
def parenthesize : Expr → Expr
  | .group left combinator right _ => .group left combinator right true
  | e => .paren e

/-- Whether the expression is a group. -/
def isGroup : Expr → Bool
  | .group _ _ _ _ => true
  | _ => false

/-- Whether the expression is a text constant. -/
def isText : Expr → Bool
  | .lit (.text _) => true
  | _ => false

end Expr

/-! ## Equal trees

Numbers are compared as numbers, as in `Literal.same`. -/

mutual

/-- Whether two expressions are equal trees. -/
def Expr.same : Expr → Expr → Bool
  | .lit a, .lit b => a.same b
  | .ident x, .ident y => x == y
  | .property x ss, .property y ts => x == y && Step.sameAll ss ts
  | .call f as, .call g bs => f == g && Expr.sameAll as bs
  | .object es, .object fs => Expr.sameEntries es fs
  | .arith a o b, .arith c p d => o == p && a.same c && b.same d
  | .concat as, .concat bs => Expr.sameAll as bs
  | .compare a o b, .compare c p d => o == p && a.same c && b.same d
  | .group a o none m, .group c p none n => o == p && m == n && a.same c
  | .group a o (some b) m, .group c p (some d) n => o == p && m == n && a.same c && b.same d
  | _, _ => false

/-- Equality of lists of expressions. -/
def Expr.sameAll : List Expr → List Expr → Bool
  | [], [] => true
  | a :: as, b :: bs => a.same b && Expr.sameAll as bs
  | _, _ => false

/-- Equality of the entries of objects. -/
def Expr.sameEntries : List (String × Expr) → List (String × Expr) → Bool
  | [], [] => true
  | (k, a) :: as, (l, b) :: bs => k == l && a.same b && Expr.sameEntries as bs
  | _, _ => false

/-- Equality of steps. -/
def Step.same : Step → Step → Bool
  | .field x, .field y => x == y
  | .index a, .index b => a.same b
  | _, _ => false

/-- Equality of paths. -/
def Step.sameAll : List Step → List Step → Bool
  | [], [] => true
  | s :: ss, t :: ts => s.same t && Step.sameAll ss ts
  | _, _ => false

end

/-- Whether two references are equal. -/
def Reference.same : Reference → Reference → Bool
  | .ident x, .ident y => x == y
  | .property x ss, .property y ts => x == y && Step.sameAll ss ts
  | _, _ => false

end Edict

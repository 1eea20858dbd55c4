import Edict.Expr.Basic

/-!
# Expressions as text

`Expr.display` writes an expression so that its grouping can be seen: every arithmetic step and
every group of two operands stands in parentheses, whether the source had them or not, and a chain
of additions begun by a text is written like a call.
-/

namespace Edict

/-- Texts with commas between them. -/
def commaSeparated (texts : List String) : String := ", ".intercalate texts

mutual

/-- An expression as text. -/
def Expr.display : Expr → String
  | .lit l => l.display
  | .ident name => name
  | .property base steps => base ++ Step.displayAll steps
  | .call f args => f ++ "(" ++ commaSeparated (Expr.displayAll args) ++ ")"
  | .object entries => "\x7b" ++ commaSeparated (Expr.displayEntries entries) ++ "\x7d"
  | .arith l op r => "(" ++ l.display ++ " " ++ op.symbol ++ " " ++ r.display ++ ")"
  | .concat parts => "concat(" ++ commaSeparated (Expr.displayAll parts) ++ ")"
  | .compare l op r => l.display ++ " " ++ op.symbol ++ " " ++ r.display
  | .group l (some op) (some r) _ =>
      "(" ++ l.display ++ " " ++ op.keyword ++ " " ++ r.display ++ ")"
  | .group l _ _ _ => l.display

/-- The texts of several expressions. -/
def Expr.displayAll : List Expr → List String
  | [] => []
  | e :: es => e.display :: Expr.displayAll es

/-- The texts of the entries of an object. -/
def Expr.displayEntries : List (String × Expr) → List String
  | [] => []
  | (name, e) :: es => (quoted name ++ ": " ++ e.display) :: Expr.displayEntries es

/-- A path as text. -/
def Step.displayAll : List Step → String
  | [] => ""
  | .field name :: steps => "." ++ name ++ Step.displayAll steps
  | .index e :: steps => "[" ++ e.display ++ "]" ++ Step.displayAll steps

end

/-- A group of a single operand is shown as its operand. -/
@[simp] theorem Expr.display_single (e : Expr) (combinator : Option Combinator) (b : Bool) :
    (group e combinator none b).display = e.display := by
  cases combinator <;> rfl

/-- A reference as text. -/
def Reference.display : Reference → String
  | .ident name => name
  | .property base steps => base ++ Step.displayAll steps

end Edict

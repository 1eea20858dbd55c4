import Edict.Expr.Basic
import Edict.Run.Call

/-!
# The value of an expression

Operands are evaluated from left to right, and all of them: a combinator does not skip its right
operand.  The indices of a path are evaluated before its variable is looked at.
-/

namespace Edict

mutual

/-- The value of an expression. -/
def Expr.eval : Expr → Run Value
  | .lit l => return l.value
  | .ident name => Run.lookup name
  | .property base path => do
      let keys ← Step.evalAll path
      Run.readPath base keys
  | .call f args => Builtin.call f (Expr.arguments args)
  | .object entries => do
      let pairs ← Expr.evalEntries entries
      return .map (Entries.ofList pairs)
  | .arith l op r => do
      let left ← l.eval
      let right ← r.eval
      Run.ofExcept (Value.arith op left right)
  | .concat parts => do
      let vs ← Expr.evalAll parts
      return .text (String.join (vs.map Value.display))
  | .compare l op r => do
      let left ← l.eval
      let right ← r.eval
      let holds ← Run.ofExcept (Value.compare op left right)
      return .bool holds
  | .group l (some op) (some r) _ => do
      let left ← l.eval
      let right ← r.eval
      return .bool (Value.combine op left right)
  | .group l _ _ _ => l.eval

/-- The values of expressions, from left to right. -/
def Expr.evalAll : List Expr → Run (List Value)
  | [] => return []
  | e :: es => do
      let v ← e.eval
      let vs ← Expr.evalAll es
      return v :: vs

/-- The entries of an object, in the order in which they are written. -/
def Expr.evalEntries : List (String × Expr) → Run (List (String × Value))
  | [] => return []
  | (name, e) :: es => do
      let v ← e.eval
      let pairs ← Expr.evalEntries es
      return (name, v) :: pairs

/-- The keys of a path. -/
def Step.evalAll : List Step → Run (List Key)
  | [] => return []
  | .field name :: steps => do
      let keys ← Step.evalAll steps
      return .field name :: keys
  | .index e :: steps => do
      let v ← e.eval
      let keys ← Step.evalAll steps
      return .index v :: keys

/-- The place that an expression is, if it is a reference. -/
def Expr.place? : Expr → Option (String × Run (List Key))
  | .ident name => some (name, return [])
  | .property base path => some (base, Step.evalAll path)
  | _ => none

/-- The arguments of a call. -/
def Expr.arguments : List Expr → List Argument
  | [] => []
  | e :: es => ⟨e.eval, e.place?⟩ :: Expr.arguments es

end

end Edict

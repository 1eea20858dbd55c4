import Edict.Program
import Edict.Run.Expr

/-!
# Running programs

Statements run in order, up to the first fault.  The elements of a loop are fixed before the loop
begins, so what its body does to the list or map has no influence on it.
-/

namespace Edict

/-- The value at a reference. -/
def Reference.read : Reference → Run Value
  | .ident name => Run.lookup name
  | .property base path => do
      let keys ← Step.evalAll path
      Run.readPath base keys

/-- Assigns a value to a reference: first the indices of its path are evaluated, then the place is
changed. -/
def Reference.assign (r : Reference) (op : AssignOp) (v : Value) : Run Unit := do
  let keys ← Step.evalAll r.steps
  Run.store r.root keys op v

/-- The elements that a loop runs through: literals, the items of a list, or the values of a map in
the order of its keys. -/
def Source.elements : Source → Run (List Value)
  | .literals items => return items.map Literal.value
  | .reference place => do
      let v ← place.read
      match v with
      | .list items => return items
      | .map entries => return entries.map (·.2)
      | v => throw (.wrongKind .forEach (.kinds .list [.map]) v)

mutual

/-- Runs a statement. -/
def Stmt.exec : Stmt → Run Unit
  | .assign target op value => do
      let v ← value.eval
      target.assign op v
  | .branch condition thenBody elseBody => do
      let v ← condition.eval
      if v.truthy then
        Stmt.execAll thenBody
      else
        match elseBody with
        | some body => Stmt.execAll body
        | none => pure ()
  | .count limit body => do
      let v ← limit.eval
      match v with
      | .number n => Run.count (Stmt.execAll body) n
      | v => throw (.wrongKind .loopCount (.kind .number) v)
  | .each source body => do
      let items ← source.elements
      Run.ownLoop (Run.forEach (Stmt.execAll body) items)
  | .call f args => discard (Builtin.call f (Expr.arguments args))

/-- Runs statements in order. -/
def Stmt.execAll : List Stmt → Run Unit
  | [] => pure ()
  | s :: rest => do
      s.exec
      Stmt.execAll rest

end

/-- How a run ends. -/
structure Outcome where
  /-- The fault that ended the run, if there was one. -/
  fault? : Option Fault
  /-- The context that the run leaves. -/
  context : Context

/-- Runs a program against a context.  The loop slot begins empty and is put back at the end, so
that an assignment to `$val` outside of loops does not outlive the run.  A run without end has no
outcome. -/
def Program.run (p : Program) (c : Context) : Option Outcome :=
  match Run.ownLoop (Stmt.execAll p) c with
  | some (.ok _, after) => some ⟨none, after⟩
  | some (.error f, after) => some ⟨some f, after⟩
  | none => none

end Edict

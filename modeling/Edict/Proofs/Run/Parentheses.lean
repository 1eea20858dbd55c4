import Edict.Proofs.Grammar.Enclosing
import Edict.Proofs.Grammar.ExpressionPrinting
import Edict.Run.Program
import Mathlib.Data.List.Forall2

/-!
# Parentheses do nothing

Parentheses steer the reader only.  What is read has a group of one operand for an operand in
parentheses, and a mark at a group that stands in parentheses; a run passes the one through and does
not look at the other.  So a program runs the same without them, but for one place: `APPEND` takes a
place as its first argument, and an operand in parentheses names none.

## Main definitions

* `Expr.Loosened`, `Stmt.LoosenedAll`: an expression or a program with groups of one operand dropped
  at some places and other marks at some groups.
* `Expr.SameTarget`: the first argument of `APPEND` is a place before and after, or is none.

## Main statements

* `Expr.Loosened.eval_eq`, `Stmt.LoosenedAll.execAll_eq`: what is loosened does the same, in any
  context, whether it succeeds, fails or has no end.
* `parentheses_redundant`: any number of pairs of parentheses is read as one pair, and a program
  runs the same without them.
-/

namespace Edict

/-! ## Fewer parentheses -/

/-- The calls give `APPEND` a place as its first argument both or neither.  No other function asks
for one. -/
def Expr.SameTarget (function : String) (args args' : List Expr) : Prop :=
  Builtin.ofName? function = some .append →
    (args.head?.bind Expr.place?).isSome = (args'.head?.bind Expr.place?).isSome

mutual

/-- The second expression is the first one with groups of one operand dropped at some places and
with other marks at some groups. -/
inductive Expr.Loosened : Expr → Expr → Prop
  | lit (l : Literal) : Expr.Loosened (.lit l) (.lit l)
  | ident (name : String) : Expr.Loosened (.ident name) (.ident name)
  | property {base : String} {path path' : List Step} : Step.LoosenedAll path path' →
      Expr.Loosened (.property base path) (.property base path')
  | call {f : String} {args args' : List Expr} : Expr.LoosenedAll args args' →
      Expr.SameTarget f args args' → Expr.Loosened (.call f args) (.call f args')
  | object {entries entries' : List (String × Expr)} : Expr.LoosenedEntries entries entries' →
      Expr.Loosened (.object entries) (.object entries')
  | arith {l l' r r' : Expr} {op : ArithOp} : Expr.Loosened l l' → Expr.Loosened r r' →
      Expr.Loosened (.arith l op r) (.arith l' op r')
  | concat {parts parts' : List Expr} : Expr.LoosenedAll parts parts' →
      Expr.Loosened (.concat parts) (.concat parts')
  | compare {l l' r r' : Expr} {op : CompareOp} : Expr.Loosened l l' → Expr.Loosened r r' →
      Expr.Loosened (.compare l op r) (.compare l' op r')
  /-- A group of one operand with its mark or the other one. -/
  | single {e e' : Expr} {op : Option Combinator} {b b' : Bool} : Expr.Loosened e e' →
      Expr.Loosened (.group e op none b) (.group e' op none b')
  /-- A group of one operand that is dropped. -/
  | drop {e e' : Expr} {op : Option Combinator} {b : Bool} : Expr.Loosened e e' →
      Expr.Loosened (.group e op none b) e'
  /-- A group of two operands with its mark or the other one. -/
  | group {l l' r r' : Expr} {op : Option Combinator} {b b' : Bool} : Expr.Loosened l l' →
      Expr.Loosened r r' → Expr.Loosened (.group l op (some r) b) (.group l' op (some r') b')

/-- The same for each expression of a list. -/
inductive Expr.LoosenedAll : List Expr → List Expr → Prop
  | nil : Expr.LoosenedAll [] []
  | cons {e e' : Expr} {es es' : List Expr} : Expr.Loosened e e' → Expr.LoosenedAll es es' →
      Expr.LoosenedAll (e :: es) (e' :: es')

/-- The same for each entry of an object. -/
inductive Expr.LoosenedEntries : List (String × Expr) → List (String × Expr) → Prop
  | nil : Expr.LoosenedEntries [] []
  | cons {name : String} {e e' : Expr} {es es' : List (String × Expr)} : Expr.Loosened e e' →
      Expr.LoosenedEntries es es' → Expr.LoosenedEntries ((name, e) :: es) ((name, e') :: es')

/-- The same for each index of a path. -/
inductive Step.LoosenedAll : List Step → List Step → Prop
  | nil : Step.LoosenedAll [] []
  | field {name : String} {path path' : List Step} : Step.LoosenedAll path path' →
      Step.LoosenedAll (.field name :: path) (.field name :: path')
  | index {e e' : Expr} {path path' : List Step} : Expr.Loosened e e' →
      Step.LoosenedAll path path' → Step.LoosenedAll (.index e :: path) (.index e' :: path')

end

/-- The same for the indices of a reference. -/
inductive Reference.Loosened : Reference → Reference → Prop
  | ident (name : String) : Reference.Loosened (.ident name) (.ident name)
  | property {base : String} {path path' : List Step} : Step.LoosenedAll path path' →
      Reference.Loosened (.property base path) (.property base path')

/-- The same for what a loop runs through. -/
inductive Source.Loosened : Source → Source → Prop
  | literals (items : List Literal) : Source.Loosened (.literals items) (.literals items)
  | reference {r r' : Reference} : r.Loosened r' → Source.Loosened (.reference r) (.reference r')

mutual

/-- The same for the expressions of a statement. -/
inductive Stmt.Loosened : Stmt → Stmt → Prop
  | assign {r r' : Reference} {op : AssignOp} {e e' : Expr} : r.Loosened r' → e.Loosened e' →
      Stmt.Loosened (.assign r op e) (.assign r' op e')
  | branch {e e' : Expr} {body body' : List Stmt} {other other' : Option (List Stmt)} :
      e.Loosened e' → Stmt.LoosenedAll body body' → Stmt.LoosenedElse other other' →
      Stmt.Loosened (.branch e body other) (.branch e' body' other')
  | count {e e' : Expr} {body body' : List Stmt} : e.Loosened e' → Stmt.LoosenedAll body body' →
      Stmt.Loosened (.count e body) (.count e' body')
  | each {source source' : Source} {body body' : List Stmt} : source.Loosened source' →
      Stmt.LoosenedAll body body' → Stmt.Loosened (.each source body) (.each source' body')
  | call {f : String} {args args' : List Expr} : Expr.LoosenedAll args args' →
      Expr.SameTarget f args args' → Stmt.Loosened (.call f args) (.call f args')

/-- The same for statements in order. -/
inductive Stmt.LoosenedAll : List Stmt → List Stmt → Prop
  | nil : Stmt.LoosenedAll [] []
  | cons {s s' : Stmt} {ss ss' : List Stmt} : Stmt.Loosened s s' → Stmt.LoosenedAll ss ss' →
      Stmt.LoosenedAll (s :: ss) (s' :: ss')

/-- The same for a body after `else`. -/
inductive Stmt.LoosenedElse : Option (List Stmt) → Option (List Stmt) → Prop
  | none : Stmt.LoosenedElse none none
  | some {body body' : List Stmt} : Stmt.LoosenedAll body body' →
      Stmt.LoosenedElse (some body) (some body')

end

/-! ## Calls -/

namespace Builtin

/-- Of the arguments of a call only their values matter, and to `APPEND` the place that the first
one is. -/
theorem call_congr {f : String} {args args' : List Argument}
    (hvalues : List.Forall₂ (fun a a' => a.value = a'.value) args args')
    (htarget : ofName? f = some .append →
      args.head?.bind Argument.place? = args'.head?.bind Argument.place?) :
    call f args = call f args' := by
  have hmap : args.map Argument.value = args'.map Argument.value := by
    rw [← List.forall₂_eq_eq_eq, List.forall₂_map_left_iff, List.forall₂_map_right_iff]
    exact hvalues
  rw [call, call, hvalues.length_eq]
  cases hf : ofName? f with
  | none => rfl
  | some g =>
      refine bind_congr fun _ => ?_
      cases g with
      | max | min => dsimp only; rw [hmap]
      | append =>
          rcases hvalues with _ | ⟨_, _ | ⟨h, _ | _⟩⟩
          · rfl
          · rfl
          · have hplace := htarget hf
            dsimp only [push]
            dsimp only [List.head?_cons, Option.bind_some] at hplace
            rw [h, hplace]
          · rfl
      | _ =>
        rcases hvalues with _ | ⟨h, _ | _⟩
        · rfl
        · dsimp only
          rw [h]
        · rfl

end Builtin

/-! ## Values -/

/-- A group of one operand has the value of that. -/
theorem Expr.eval_single (e : Expr) (op : Option Combinator) (b : Bool) :
    (Expr.group e op none b).eval = e.eval := by
  cases op <;> rfl

/-- The mark of a group of two operands has no part in its value. -/
theorem Expr.eval_group_congr {l l' r r' : Expr} {op : Option Combinator} {b b' : Bool}
    (hl : l.eval = l'.eval) (hr : r.eval = r'.eval) :
    (Expr.group l op (some r) b).eval = (Expr.group l' op (some r') b').eval := by
  cases op with
  | none => exact hl
  | some op => rw [Expr.eval, Expr.eval, hl, hr]

mutual

/-- An expression has the same value without its parentheses. -/
theorem Expr.Loosened.eval_eq {e e' : Expr} : e.Loosened e' → e.eval = e'.eval
  | .lit _ => rfl
  | .ident _ => rfl
  | .property hpath => by rw [Expr.eval, Expr.eval, hpath.evalAll_eq]
  | .call hargs htarget => by
      rw [Expr.eval, Expr.eval]
      exact Builtin.call_congr hargs.values_eq fun hf => hargs.target_eq (htarget hf)
  | .object hentries => by rw [Expr.eval, Expr.eval, hentries.evalEntries_eq]
  | .arith hl hr => by rw [Expr.eval, Expr.eval, hl.eval_eq, hr.eval_eq]
  | .concat hparts => by rw [Expr.eval, Expr.eval, hparts.evalAll_eq]
  | .compare hl hr => by rw [Expr.eval, Expr.eval, hl.eval_eq, hr.eval_eq]
  | .single h => by rw [Expr.eval_single, Expr.eval_single, h.eval_eq]
  | .drop h => by rw [Expr.eval_single, h.eval_eq]
  | .group hl hr => Expr.eval_group_congr hl.eval_eq hr.eval_eq

/-- So have several expressions. -/
theorem Expr.LoosenedAll.evalAll_eq {es es' : List Expr} :
    Expr.LoosenedAll es es' → Expr.evalAll es = Expr.evalAll es'
  | .nil => rfl
  | .cons h hmore => by rw [Expr.evalAll, Expr.evalAll, h.eval_eq, hmore.evalAll_eq]

/-- So have the entries of an object. -/
theorem Expr.LoosenedEntries.evalEntries_eq {es es' : List (String × Expr)} :
    Expr.LoosenedEntries es es' → Expr.evalEntries es = Expr.evalEntries es'
  | .nil => rfl
  | .cons h hmore => by
      rw [Expr.evalEntries, Expr.evalEntries, h.eval_eq, hmore.evalEntries_eq]

/-- So have the indices of a path. -/
theorem Step.LoosenedAll.evalAll_eq {path path' : List Step} :
    Step.LoosenedAll path path' → Step.evalAll path = Step.evalAll path'
  | .nil => rfl
  | .field hmore => by rw [Step.evalAll, Step.evalAll, hmore.evalAll_eq]
  | .index h hmore => by rw [Step.evalAll, Step.evalAll, h.eval_eq, hmore.evalAll_eq]

/-- So have the arguments of a call. -/
theorem Expr.LoosenedAll.values_eq {es es' : List Expr} : Expr.LoosenedAll es es' →
    List.Forall₂ (fun a a' => a.value = a'.value) (Expr.arguments es) (Expr.arguments es')
  | .nil => .nil
  | .cons h hmore => .cons h.eval_eq hmore.values_eq

/-- An expression that is a place is the same place if it stays one. -/
theorem Expr.Loosened.place?_eq {e e' : Expr} : e.Loosened e' →
    e.place?.isSome = e'.place?.isSome → e.place? = e'.place?
  | .ident _, _ => rfl
  | .property hpath, _ => by rw [Expr.place?, Expr.place?, hpath.evalAll_eq]
  | .drop _, h => (Option.not_isSome_iff_eq_none.mp (by rw [← h]; exact nofun)).symm
  | .lit _, _ => rfl
  | .call _ _, _ => rfl
  | .object _, _ => rfl
  | .arith _ _, _ => rfl
  | .concat _, _ => rfl
  | .compare _ _, _ => rfl
  | .single _, _ => rfl
  | .group _ _, _ => rfl

/-- The first argument of a call is the same place, if there is one in both. -/
theorem Expr.LoosenedAll.target_eq {es es' : List Expr} : Expr.LoosenedAll es es' →
    (es.head?.bind Expr.place?).isSome = (es'.head?.bind Expr.place?).isSome →
      (Expr.arguments es).head?.bind Argument.place? =
        (Expr.arguments es').head?.bind Argument.place?
  | .nil, _ => rfl
  | .cons h _, hsome => h.place?_eq hsome

end

/-- A call does the same. -/
theorem Expr.LoosenedAll.call_eq {f : String} {args args' : List Expr}
    (h : Expr.LoosenedAll args args') (htarget : Expr.SameTarget f args args') :
    Builtin.call f (Expr.arguments args) = Builtin.call f (Expr.arguments args') :=
  Builtin.call_congr h.values_eq fun hf => h.target_eq (htarget hf)

/-- Whether an expression is a group of one operand. -/
def Expr.isSingle : Expr → Bool
  | .group _ _ none _ => true
  | _ => false

/-- No place is lost or won where no group is dropped at the top of the first argument. -/
theorem Expr.Loosened.sameTarget {e e' : Expr} (h : e.Loosened e') (htop : e.isSingle = e'.isSingle)
    (f : String) (es es' : List Expr) : Expr.SameTarget f (e :: es) (e' :: es') := by
  intro _
  cases h with
  | drop _ =>
      cases e' with
      | group _ _ _ _ => rfl
      | _ => cases htop
  | _ => rfl

/-- `APPEND` takes no first argument but a bare reference, and evaluates nothing then. -/
theorem Expr.eval_append_of_place?_eq_none {f : String} (hf : Builtin.ofName? f = some .append)
    {target : Expr} (htarget : target.place? = none) (item : Expr) (c : Context) :
    (Expr.call f [target, item]).eval c =
      some (.error (.mismatch (.builtin .append) .referenceToList .expression), c) := by
  rw [Expr.eval, Expr.arguments, Expr.arguments, Expr.arguments, htarget, Builtin.call, hf]
  rfl

/-! ## Statements -/

/-- A reference has the same value without parentheses in its path. -/
theorem Reference.Loosened.read_eq {r r' : Reference} (h : r.Loosened r') : r.read = r'.read := by
  cases h with
  | ident name => rfl
  | property h => rw [Reference.read, Reference.read, h.evalAll_eq]

/-- It is assigned to in the same way. -/
theorem Reference.Loosened.assign_eq {r r' : Reference} (h : r.Loosened r') :
    r.assign = r'.assign := by
  cases h with
  | ident name => rfl
  | property h =>
      funext op v
      rw [Reference.assign, Reference.assign, steps, steps, h.evalAll_eq]
      rfl

/-- A loop runs through the same elements. -/
theorem Source.Loosened.elements_eq {source source' : Source} (h : source.Loosened source') :
    source.elements = source'.elements := by
  cases h with
  | literals => rfl
  | reference h => rw [Source.elements, Source.elements, h.read_eq]

mutual

/-- A statement does the same without its parentheses. -/
theorem Stmt.Loosened.exec_eq {s s' : Stmt} : s.Loosened s' → s.exec = s'.exec
  | .assign hr he => by rw [Stmt.exec, Stmt.exec, hr.assign_eq, he.eval_eq]
  | .branch he hbody .none => by rw [Stmt.exec, Stmt.exec, he.eval_eq, hbody.execAll_eq]
  | .branch he hbody (.some hother) => by
      simp only [Stmt.exec]
      rw [he.eval_eq, hbody.execAll_eq, hother.execAll_eq]
  | .count he hbody => by rw [Stmt.exec, Stmt.exec, he.eval_eq, hbody.execAll_eq]
  | .each hsource hbody => by
      rw [Stmt.exec, Stmt.exec, hsource.elements_eq, hbody.execAll_eq]
  | .call hargs htarget => by rw [Stmt.exec, Stmt.exec, hargs.call_eq htarget]

/-- So do statements in order. -/
theorem Stmt.LoosenedAll.execAll_eq {ss ss' : List Stmt} :
    Stmt.LoosenedAll ss ss' → Stmt.execAll ss = Stmt.execAll ss'
  | .nil => rfl
  | .cons h hmore => by rw [Stmt.execAll, Stmt.execAll, h.exec_eq, hmore.execAll_eq]

end

/-- A program runs the same without its parentheses. -/
theorem Program.run_loosened {p p' : Program} (h : Stmt.LoosenedAll p p') (c : Context) :
    p.run c = p'.run c := by
  rw [Program.run, Program.run, h.execAll_eq]

/-! ## Reading and running -/

open Grammar Derives

/-- Parentheses that are not needed change nothing.

What is read as a condition is read in any number of parentheses as in one pair: as the group that
it is, with its mark set, or as a group of one operand.  And a program runs the same, in every
context, with groups of one operand dropped and with other marks at its groups, as long as the first
argument of `APPEND` stays a bare reference or stays none, and so if nothing is dropped at the top
of it; that it is one is what `APPEND` asks for. -/
theorem parentheses_redundant :
    (∀ us rest e, Gives (readCondition (us ++ rest)) e rest →
      ∀ n ts, Enclosed us (n + 1) ts → ∀ rest', TermAt (ts ++ rest') e.parenthesize rest' ∧
        (Unlinked rest' → Gives (readCondition (ts ++ rest')) e.parenthesize rest' ∧
          Gives (readExpression (ts ++ rest')) e.parenthesize rest')) ∧
    (∀ l op r b, (Expr.group l op r b).parenthesize = .group l op r true) ∧
    (∀ e : Expr, e.isGroup = false → e.parenthesize = .group e none none true) ∧
    (∀ p p', Stmt.LoosenedAll p p' → ∀ c, Program.run p c = Program.run p' c) ∧
    (∀ e e' : Expr, e.Loosened e' → e.isSingle = e'.isSingle →
      ∀ f es es', Expr.SameTarget f (e :: es) (e' :: es')) ∧
    ∀ f, Builtin.ofName? f = some .append → ∀ target : Expr, target.place? = none → ∀ item c,
      (Expr.call f [target, item]).eval c =
        some (.error (.mismatch (.builtin .append) .referenceToList .expression), c) := by
  refine ⟨fun us rest e h n ts hts rest' => reads_enclosed h hts rest', fun _ _ _ _ => rfl,
    fun e he => Expr.parenthesize_of_isGroup he, fun p p' h c => ?_,
    fun e e' h htop => h.sameTarget htop, ?_⟩
  · exact Program.run_loosened h c
  · exact fun f hf target htarget item c => Expr.eval_append_of_place?_eq_none hf htarget item c

/-- `((true))` is read as `(true)` is and runs as `true` does, also without its mark; a place in
parentheses is none. -/
theorem parentheses_redundant_true :
    Gives (readCondition [Symbol.lparen.token, Symbol.lparen.token, (TokenKind.bool true).token,
      Symbol.rparen.token, Symbol.rparen.token]) (.paren (.lit (.bool true))) [] ∧
    Program.run [.assign (.ident "$x") .set (.paren (.lit (.bool true)))] (.empty .buffer) =
      Program.run [.assign (.ident "$x") .set (.lit (.bool true))] (.empty .buffer) ∧
    Program.run [.assign (.ident "$x") .set (.paren (.lit (.bool true)))] (.empty .buffer) =
      Program.run [.assign (.ident "$x") .set (.group (.lit (.bool true)) none none false)]
        (.empty .buffer) ∧
    (Expr.call "Append" [.paren (.ident "$x"), .lit (.bool true)]).eval (.empty .buffer) =
      some (.error (.mismatch (.builtin .append) .referenceToList .expression), .empty .buffer) := by
  obtain ⟨hread, -, -, hrun, -, happend⟩ := parentheses_redundant
  have htrue : Boolean [(TokenKind.bool true).token] (.lit (.bool true)) :=
    (Term.value (.mk .bool .nil)).boolean
  have hgives : Gives (readCondition ([(TokenKind.bool true).token] ++ []))
      (.lit (.bool true)) [] := readCondition_complete htrue Nat.zero_lt_one
  have hbare : Enclosed [(TokenKind.bool true).token] 0 _ := .bare
  have hpairs := (hbare.pair Span.nowhere Span.nowhere).pair Span.nowhere Span.nowhere
  refine ⟨((hread _ _ _ hgives 1 _ hpairs []).2 rfl).1, ?_, ?_, ?_⟩
  · exact hrun _ _ (.cons (.assign (.ident _) (.drop (.lit _))) .nil) _
  · exact hrun _ _ (.cons (.assign (.ident _) (.single (.lit _))) .nil) _
  · exact happend "Append" (by decide) _ rfl _ _

end Edict

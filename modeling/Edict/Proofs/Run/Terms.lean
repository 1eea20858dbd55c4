import Edict.Builtin
import Edict.Program

/-!
# The parts of programs

Everything that a statement about a program may ask of its parts is asked of two lists: the
statements in it, at any depth (`Stmt.nested`), and the expressions in these (`Stmt.terms`).  So
"`APPEND` occurs nowhere" and "the names that occur" are said once, by a filter, and need no
recursion of their own.

## Main definitions

* `Expr.subterms`, `Stmt.nested`, `Stmt.terms`: the expressions in an expression, the statements in
  a statement, and the expressions in its own operands; each of them at any depth.
* `Expr.Everywhere`, `Expr.AppendFree`: a property holds of every part of an expression; no part of
  it calls `APPEND`.
* `Program.names`: the names that a program mentions, as variables or as the roots of paths.

## Main statements

* `Expr.subterms_subset`: parts of parts are parts.
* The lemmas `Expr.everywhere_*`: what a property that holds everywhere asks of each form of
  expression.
-/

namespace Edict

/-! ## Expressions -/

mutual

/-- An expression and all expressions inside it. -/
def Expr.subterms : Expr → List Expr
  | .lit l => [.lit l]
  | .ident name => [.ident name]
  | .property base path => .property base path :: Step.subtermsAll path
  | .call f args => .call f args :: Expr.subtermsAll args
  | .object entries => .object entries :: Expr.subtermsEntries entries
  | .arith l op r => .arith l op r :: (l.subterms ++ r.subterms)
  | .concat parts => .concat parts :: Expr.subtermsAll parts
  | .compare l op r => .compare l op r :: (l.subterms ++ r.subterms)
  | .group l op none b => .group l op none b :: l.subterms
  | .group l op (some r) b => .group l op (some r) b :: (l.subterms ++ r.subterms)

/-- The expressions of a list, and all inside them. -/
def Expr.subtermsAll : List Expr → List Expr
  | [] => []
  | e :: es => e.subterms ++ Expr.subtermsAll es

/-- The expressions in the entries of an object. -/
def Expr.subtermsEntries : List (String × Expr) → List Expr
  | [] => []
  | (_, e) :: es => e.subterms ++ Expr.subtermsEntries es

/-- The expressions in the indices of a path. -/
def Step.subtermsAll : List Step → List Expr
  | [] => []
  | .field _ :: steps => Step.subtermsAll steps
  | .index e :: steps => e.subterms ++ Step.subtermsAll steps

end

/-- An expression is one of its own subterms. -/
theorem Expr.mem_subterms_self (e : Expr) : e ∈ e.subterms := by
  cases e with
  | group l op r b => cases r <;> simp [Expr.subterms]
  | _ => simp [Expr.subterms]

section subset

variable {y e : Expr} {as bs : List Expr}

/-- What is inside an expression or inside what stands in it is inside the expression. -/
theorem Expr.subset_cons_of_mem (he : e.subterms = e :: as) (h : y ∈ e :: as)
    (has : y ∈ as → y.subterms ⊆ as) : y.subterms ⊆ e :: as := by
  rcases List.mem_cons.mp h with rfl | h
  · rw [he]
    exact fun _ hx => hx
  · exact List.subset_cons_of_subset _ (has h)

/-- What is inside one of two lists is inside both together. -/
theorem Expr.subset_append_of_mem (h : y ∈ as ++ bs) (has : y ∈ as → y.subterms ⊆ as)
    (hbs : y ∈ bs → y.subterms ⊆ bs) : y.subterms ⊆ as ++ bs := by
  rcases List.mem_append.mp h with h | h
  · exact List.subset_append_of_subset_left _ (has h)
  · exact List.subset_append_of_subset_right _ (hbs h)

end subset

mutual

/-- What is inside a part of an expression is inside the expression. -/
theorem Expr.subterms_subset {y : Expr} : ∀ e : Expr, y ∈ e.subterms → y.subterms ⊆ e.subterms
  | .lit _, h => Expr.subset_cons_of_mem rfl h fun h => by cases h
  | .ident _, h => Expr.subset_cons_of_mem rfl h fun h => by cases h
  | .property _ path, h => Expr.subset_cons_of_mem rfl h (Step.subtermsAll_subset path)
  | .call _ args, h => Expr.subset_cons_of_mem rfl h (Expr.subtermsAll_subset args)
  | .object entries, h => Expr.subset_cons_of_mem rfl h (Expr.subtermsEntries_subset entries)
  | .arith l _ r, h => Expr.subset_cons_of_mem rfl h fun h =>
      Expr.subset_append_of_mem h (Expr.subterms_subset l) (Expr.subterms_subset r)
  | .concat parts, h => Expr.subset_cons_of_mem rfl h (Expr.subtermsAll_subset parts)
  | .compare l _ r, h => Expr.subset_cons_of_mem rfl h fun h =>
      Expr.subset_append_of_mem h (Expr.subterms_subset l) (Expr.subterms_subset r)
  | .group l _ none _, h => Expr.subset_cons_of_mem rfl h (Expr.subterms_subset l)
  | .group l _ (some r) _, h => Expr.subset_cons_of_mem rfl h fun h =>
      Expr.subset_append_of_mem h (Expr.subterms_subset l) (Expr.subterms_subset r)

/-- The same for several expressions. -/
theorem Expr.subtermsAll_subset {y : Expr} : ∀ es : List Expr, y ∈ Expr.subtermsAll es →
    y.subterms ⊆ Expr.subtermsAll es
  | e :: es, h =>
      Expr.subset_append_of_mem h (Expr.subterms_subset e) (Expr.subtermsAll_subset es)

/-- The same for the entries of an object. -/
theorem Expr.subtermsEntries_subset {y : Expr} : ∀ es : List (String × Expr),
    y ∈ Expr.subtermsEntries es → y.subterms ⊆ Expr.subtermsEntries es
  | (_, e) :: es, h =>
      Expr.subset_append_of_mem h (Expr.subterms_subset e) (Expr.subtermsEntries_subset es)

/-- The same for the indices of a path. -/
theorem Step.subtermsAll_subset {y : Expr} : ∀ path : List Step, y ∈ Step.subtermsAll path →
    y.subterms ⊆ Step.subtermsAll path
  | .field _ :: path, h => Step.subtermsAll_subset path h
  | .index e :: path, h =>
      Expr.subset_append_of_mem h (Expr.subterms_subset e) (Step.subtermsAll_subset path)

end

/-- The subterms of several expressions are those of each. -/
theorem Expr.subtermsAll_eq (es : List Expr) : Expr.subtermsAll es = es.flatMap Expr.subterms := by
  induction es with
  | nil => rfl
  | cons e es ih => rw [Expr.subtermsAll, List.flatMap_cons, ih]

/-! ### All nodes of an expression -/

namespace Expr

/-- The nodes of several expressions are those of each. -/
theorem forall_mem_subtermsAll {es : List Expr} {p : Expr → Prop} :
    (∀ x ∈ Expr.subtermsAll es, p x) ↔ ∀ e ∈ es, ∀ x ∈ e.subterms, p x := by
  rw [subtermsAll_eq, List.forall_mem_flatMap]

/-- The nodes of the entries of an object are those of their values. -/
theorem forall_mem_subtermsEntries {es : List (String × Expr)} {p : Expr → Prop} :
    (∀ x ∈ Expr.subtermsEntries es, p x) ↔ ∀ entry ∈ es, ∀ x ∈ entry.2.subterms, p x := by
  induction es with
  | nil => simp [subtermsEntries]
  | cons entry es ih => rw [subtermsEntries, List.forall_mem_append, List.forall_mem_cons, ih]

/-- The nodes in a path are those of its indices. -/
theorem forall_mem_subtermsPath {path : List Step} {p : Expr → Prop} :
    (∀ x ∈ Step.subtermsAll path, p x) ↔ ∀ e, .index e ∈ path → ∀ x ∈ e.subterms, p x := by
  induction path with
  | nil => simp [Step.subtermsAll]
  | cons step path ih =>
      cases step with
      | field name => simp [Step.subtermsAll, ih]
      | index e => simp [Step.subtermsAll, ih, or_imp, forall_and]

/-- All nodes of the expression have the property. -/
def Everywhere (p : Expr → Prop) (e : Expr) : Prop := ∀ x ∈ e.subterms, p x

section everywhere

variable {p : Expr → Prop} {e l r : Expr}

/-- What all nodes of an expression have, the expression has. -/
theorem Everywhere.node (h : e.Everywhere p) : p e := h e (mem_subterms_self e)

/-- A literal has no parts but itself. -/
theorem everywhere_lit {v : Literal} : (lit v).Everywhere p ↔ p (lit v) := List.forall_mem_singleton

/-- Neither has a name. -/
theorem everywhere_ident {name : String} : (ident name).Everywhere p ↔ p (ident name) :=
  List.forall_mem_singleton

/-- The parts of a property are those of its indices. -/
theorem everywhere_property {base : String} {path : List Step} :
    (property base path).Everywhere p ↔
      p (property base path) ∧ ∀ e, .index e ∈ path → e.Everywhere p := by
  unfold Everywhere
  rw [subterms, List.forall_mem_cons, forall_mem_subtermsPath]

/-- So are those of any reference. -/
theorem everywhere_toExpr {r : Reference} :
    r.toExpr.Everywhere p ↔ p r.toExpr ∧ ∀ e, .index e ∈ r.steps → e.Everywhere p := by
  cases r with
  | ident name => exact everywhere_ident.trans (and_iff_left fun _ h => nomatch h).symm
  | property base path => exact everywhere_property

/-- The parts of a call are those of its arguments. -/
theorem everywhere_call {f : String} {args : List Expr} :
    (call f args).Everywhere p ↔ p (call f args) ∧ ∀ e ∈ args, e.Everywhere p := by
  unfold Everywhere
  rw [subterms, List.forall_mem_cons, forall_mem_subtermsAll]

/-- The parts of an object are those of its values. -/
theorem everywhere_object {es : List (String × Expr)} :
    (object es).Everywhere p ↔ p (object es) ∧ ∀ entry ∈ es, entry.2.Everywhere p := by
  unfold Everywhere
  rw [subterms, List.forall_mem_cons, forall_mem_subtermsEntries]

/-- The parts of arithmetic are those of its two sides. -/
theorem everywhere_arith {op : ArithOp} :
    (arith l op r).Everywhere p ↔ p (arith l op r) ∧ l.Everywhere p ∧ r.Everywhere p := by
  unfold Everywhere
  rw [subterms, List.forall_mem_cons, List.forall_mem_append]

/-- The parts of a concatenation are those of its operands. -/
theorem everywhere_concat {parts : List Expr} :
    (concat parts).Everywhere p ↔ p (concat parts) ∧ ∀ e ∈ parts, e.Everywhere p := by
  unfold Everywhere
  rw [subterms, List.forall_mem_cons, forall_mem_subtermsAll]

/-- The parts of a comparison are those of its two sides. -/
theorem everywhere_compare {op : CompareOp} :
    (compare l op r).Everywhere p ↔ p (compare l op r) ∧ l.Everywhere p ∧ r.Everywhere p := by
  unfold Everywhere
  rw [subterms, List.forall_mem_cons, List.forall_mem_append]

/-- The parts of a group of one operand are those of the operand. -/
theorem everywhere_single {op : Option Combinator} {b : Bool} :
    (group e op none b).Everywhere p ↔ p (group e op none b) ∧ e.Everywhere p := by
  unfold Everywhere
  rw [subterms, List.forall_mem_cons]

/-- The parts of a group of two operands are those of both. -/
theorem everywhere_group {op : Option Combinator} {b : Bool} :
    (group l op (some r) b).Everywhere p ↔
      p (group l op (some r) b) ∧ l.Everywhere p ∧ r.Everywhere p := by
  unfold Everywhere
  rw [subterms, List.forall_mem_cons, List.forall_mem_append]

end everywhere

/-! ### Names in expressions -/

/-- The name that an expression is, or at which its path begins. -/
def root? : Expr → Option String
  | .ident name => some name
  | .property base _ => some base
  | _ => none

/-- The function that an expression calls. -/
def builtin? : Expr → Option Builtin
  | .call f _ => Builtin.ofName? f
  | _ => none

/-- The name of the list, or at which the path to it begins, that an expression pushes onto. -/
def pushed? : Expr → Option String
  | .call f (target :: _) => if Builtin.ofName? f = some .append then target.root? else none
  | _ => none

/-- What an expression pushes onto is named in it. -/
theorem exists_of_pushed? {e : Expr} {root : String} (h : root ∈ e.pushed?) :
    ∃ x ∈ e.subterms, root ∈ x.root? := by
  unfold pushed? at h
  split at h
  · rename_i f target args
    split at h
    · refine ⟨target, ?_, h⟩
      exact List.mem_cons_of_mem _ (List.mem_append_left _ target.mem_subterms_self)
    · cases h
  · cases h

/-- No part of the expression calls `APPEND`, in whatever letter case. -/
def AppendFree (e : Expr) : Prop := ∀ x ∈ e.subterms, x.builtin? ≠ some .append

instance (e : Expr) : Decidable e.AppendFree :=
  inferInstanceAs (Decidable (∀ x ∈ e.subterms, x.builtin? ≠ some .append))

end Expr

/-! ## References -/

namespace Reference

/-- A reference begins at its root. -/
theorem root?_toExpr (r : Reference) : r.toExpr.root? = some r.root := by
  cases r <;> rfl

/-- What is inside the indices of a reference is inside the reference. -/
theorem subtermsAll_steps_subset (r : Reference) : Step.subtermsAll r.steps ⊆ r.toExpr.subterms := by
  cases r with
  | ident name => exact List.nil_subset _
  | property base path => exact List.subset_cons_self _ _

end Reference

/-! ## Statements -/

mutual

/-- A statement and all statements inside it. -/
def Stmt.nested : Stmt → List Stmt
  | .assign target op value => [.assign target op value]
  | .branch c t none => .branch c t none :: Stmt.nestedAll t
  | .branch c t (some e) => .branch c t (some e) :: (Stmt.nestedAll t ++ Stmt.nestedAll e)
  | .count limit body => .count limit body :: Stmt.nestedAll body
  | .each source body => .each source body :: Stmt.nestedAll body
  | .call f args => [.call f args]

/-- The statements of a list, and all inside them. -/
def Stmt.nestedAll : List Stmt → List Stmt
  | [] => []
  | s :: rest => s.nested ++ Stmt.nestedAll rest

end

/-- The statements inside several ones are those inside each. -/
theorem Stmt.nestedAll_eq (ss : List Stmt) : Stmt.nestedAll ss = ss.flatMap Stmt.nested := by
  induction ss with
  | nil => rfl
  | cons s ss ih => rw [Stmt.nestedAll, List.flatMap_cons, ih]

/-- The bodies of a branch or a loop. -/
def Stmt.bodies : Stmt → List (List Stmt)
  | .branch _ t none => [t]
  | .branch _ t (some e) => [t, e]
  | .count _ body => [body]
  | .each _ body => [body]
  | .assign _ _ _ => []
  | .call _ _ => []

/-- The statements inside a statement are itself and those in its bodies. -/
theorem Stmt.nested_eq (s : Stmt) : s.nested = s :: s.bodies.flatMap Stmt.nestedAll := by
  cases s with
  | branch c t e => cases e <;> simp [Stmt.nested, Stmt.bodies]
  | _ => simp [Stmt.nested, Stmt.bodies]

/-- The expressions that a statement evaluates itself.  A place that is assigned to or run through
counts as one; of a call these are the arguments. -/
def Stmt.operands : Stmt → List Expr
  | .assign target _ value => [target.toExpr, value]
  | .branch c _ _ => [c]
  | .count limit _ => [limit]
  | .each (.reference place) _ => [place.toExpr]
  | .each (.literals _) _ => []
  | .call _ args => args

/-- All expressions in what a statement evaluates itself. -/
def Stmt.terms (s : Stmt) : List Expr := s.operands.flatMap Expr.subterms

/-- What is inside a term of a statement is one of its terms. -/
theorem Stmt.terms_subset {s : Stmt} {x : Expr} (h : x ∈ s.terms) : x.subterms ⊆ s.terms := by
  obtain ⟨e, he, hx⟩ := List.mem_flatMap.mp h
  exact fun y hy => List.mem_flatMap.mpr ⟨e, he, Expr.subterms_subset e hx hy⟩

/-- The terms of a call are what is inside its arguments. -/
theorem Stmt.terms_call (f : String) (args : List Expr) :
    (Stmt.call f args).terms = Expr.subtermsAll args := (Expr.subtermsAll_eq args).symm

/-- The target of an assignment is one of its terms. -/
theorem Stmt.target_mem_terms (target : Reference) (op : AssignOp) (value : Expr) :
    target.toExpr ∈ (Stmt.assign target op value).terms :=
  List.mem_flatMap.mpr ⟨_, List.mem_cons_self, Expr.mem_subterms_self _⟩

/-- The names that occur in what a statement evaluates itself. -/
def Stmt.mentions (s : Stmt) : List String := s.terms.filterMap Expr.root?

/-- A name that occurs in a term of a statement is mentioned by it. -/
theorem Stmt.mem_mentions {s : Stmt} {e : Expr} {x : String} (he : e ∈ s.terms) (hx : x ∈ e.root?) :
    x ∈ s.mentions :=
  List.mem_filterMap.mpr ⟨e, he, hx⟩

namespace Program

/-- The names that occur in a program: as an operand, as the base of a path, as the target of an
assignment or of `APPEND`. -/
def names (p : Program) : List String :=
  (Stmt.nestedAll p).flatMap fun s => s.terms.filterMap Expr.root?

/-- `APPEND` occurs only as a statement, the arguments of which contain no further call of it. -/
def AppendsInStatements (p : Program) : Prop :=
  ∀ s ∈ Stmt.nestedAll p, ∀ e ∈ s.operands, e.AppendFree

instance (p : Program) : Decidable p.AppendsInStatements :=
  inferInstanceAs (Decidable (∀ s ∈ Stmt.nestedAll p, ∀ e ∈ s.operands, e.AppendFree))

end Program

end Edict

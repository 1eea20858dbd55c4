import Edict.Proofs.Grammar.Parts
import Edict.Proofs.Grammar.StatementSound

/-!
# The shape of trees

Not every tree is one that a reader returns: nothing is read as a sum with a comparison on its
right, or as an `and` whose operand is an `or` without parentheses.  `NodeShape` says of a single
node which operands it may have, and a tree has a shape (`Shaped`) if all its nodes do.  The kinds
of operands follow the levels of the grammar: a primary is an arithmetic expression, and that is a
term.

That every tree read has this shape is a property of the grammar alone, so it is proved for
derivations (`levels_shaped`); `readProgram_sound` carries it over to readers.

## Main definitions

* `Expr.isPrimary`, `Expr.isArith`, `Expr.isTerm`: the levels of trees.
* `Expr.GroupShape`, `Expr.NodeShape`, `Stmt.NodeShape`: the shape of one node.
* `Expr.Shaped`, `Program.Shaped`: all nodes have it.

## Main statements

* `Derives.Boolean.shaped`, `Derives.Program.shaped`: every tree that is derived is shaped.
* `readProgram_shaped`: every program that is read is shaped, at any depth.
* `Expr.not_shaped_group`: trees that are not shaped exist, so this says something of the readers.
-/

namespace Edict

open Grammar

/-! ## Kinds of expressions -/

namespace Expr

/-- Whether the expression is a literal, a call, a variable, a place or an object. -/
def isPrimary : Expr → Bool
  | .lit _ => true
  | .ident _ => true
  | .property _ _ => true
  | .call _ _ => true
  | .object _ => true
  | _ => false

/-- Whether the expression is a concatenation. -/
def isConcat : Expr → Bool
  | .concat _ => true
  | _ => false

/-- Whether the expression is arithmetic: a primary, an arithmetic step or a concatenation. -/
def isArith : Expr → Bool
  | .arith _ _ _ => true
  | .concat _ => true
  | e => e.isPrimary

/-- The combinator of a group that does not stand in parentheses. -/
def bare? : Expr → Option Combinator
  | .group _ combinator _ false => combinator
  | _ => none

/-- Whether the expression is a comparison, arithmetic, or in parentheses. -/
def isTerm : Expr → Bool
  | .compare _ _ _ => true
  | .group _ _ _ parenthesized => parenthesized
  | e => e.isArith

/-! ## Shapes of expressions -/

/-- Which operands a group may have, and which of them it must have. -/
structure GroupShape (left : Expr) (combinator : Option Combinator) (right : Option Expr)
    (parenthesized : Bool) : Prop where
  /-- It has a combinator if and only if it has a right side. -/
  right_iff : combinator.isSome = true ↔ right.isSome = true
  /-- Without a combinator it is in parentheses, and its operand is no group. -/
  single : combinator = none → parenthesized = true ∧ left.isGroup = false
  /-- `and` has a term on its right. -/
  right_and : combinator = some .and → ∀ r ∈ right, r.isTerm = true
  /-- `or` and `not` have a term on their right, or terms joined by `and`. -/
  right_other : combinator = some .or ∨ combinator = some .not →
    ∀ r ∈ right, r.isTerm = true ∨ r.bare? = some .and
  /-- `and` has no `or` or `not` on its left, unless in parentheses. -/
  left_and : combinator = some .and → left.bare? ≠ some .or ∧ left.bare? ≠ some .not

instance (left : Expr) (combinator : Option Combinator) (right : Option Expr)
    (parenthesized : Bool) : Decidable (GroupShape left combinator right parenthesized) :=
  decidable_of_iff
    ((combinator.isSome = true ↔ right.isSome = true) ∧
      (combinator = none → parenthesized = true ∧ left.isGroup = false) ∧
      (combinator = some .and → ∀ r ∈ right, r.isTerm = true) ∧
      (combinator = some .or ∨ combinator = some .not →
        ∀ r ∈ right, r.isTerm = true ∨ r.bare? = some .and) ∧
      (combinator = some .and → left.bare? ≠ some .or ∧ left.bare? ≠ some .not))
    ⟨fun ⟨a, b, c, d, e⟩ => ⟨a, b, c, d, e⟩, fun ⟨a, b, c, d, e⟩ => ⟨a, b, c, d, e⟩⟩

/-- Which steps and operands a node may have. -/
def NodeShape : Expr → Prop
  | .property _ steps => 1 ≤ steps.length
  | .compare l _ r => l.isArith = true ∧ r.isArith = true
  | .arith l op r =>
      r.isPrimary = true ∧ l.isArith = true ∧ (op = .add → l.isText = false ∧ l.isConcat = false)
  | .concat parts =>
      2 ≤ parts.length ∧ (∀ e ∈ parts.head?, e.isText = true) ∧ ∀ e ∈ parts.tail, e.isPrimary = true
  | .group left combinator right parenthesized => GroupShape left combinator right parenthesized
  | _ => True

instance : (e : Expr) → Decidable e.NodeShape
  | .property _ steps => inferInstanceAs (Decidable (1 ≤ steps.length))
  | .compare l _ r => inferInstanceAs (Decidable (l.isArith = true ∧ r.isArith = true))
  | .arith l op r => inferInstanceAs (Decidable (r.isPrimary = true ∧ l.isArith = true ∧
      (op = .add → l.isText = false ∧ l.isConcat = false)))
  | .concat parts => inferInstanceAs (Decidable (2 ≤ parts.length ∧
      (∀ e ∈ parts.head?, e.isText = true) ∧ ∀ e ∈ parts.tail, e.isPrimary = true))
  | .group left combinator right parenthesized =>
      inferInstanceAs (Decidable (GroupShape left combinator right parenthesized))
  | .lit _ | .ident _ | .call _ _ | .object _ => inferInstanceAs (Decidable True)

/-- All nodes of the expression have a shape. -/
def Shaped (e : Expr) : Prop := ∀ x ∈ e.subterms, x.NodeShape

instance (e : Expr) : Decidable e.Shaped :=
  inferInstanceAs (Decidable (∀ x ∈ e.subterms, x.NodeShape))

end Expr

/-! ## Shapes of programs -/

/-- Whether a literal is a text or a number. -/
def Literal.isItem : Literal → Bool
  | .text _ => true
  | .number _ => true
  | .bool _ => false

namespace Stmt

/-- The literals that a loop runs through. -/
def items : Stmt → List Literal
  | .each (.literals items) _ => items
  | _ => []

/-- Which bodies and items a statement may have, and which operands the expressions that it
evaluates itself. -/
def NodeShape (s : Stmt) : Prop :=
  (∀ b ∈ s.bodies, b ≠ []) ∧ (∀ item ∈ s.items, item.isItem = true) ∧ ∀ x ∈ s.terms, x.NodeShape

instance (s : Stmt) : Decidable s.NodeShape :=
  inferInstanceAs (Decidable ((∀ b ∈ s.bodies, b ≠ []) ∧
    (∀ item ∈ s.items, item.isItem = true) ∧ ∀ x ∈ s.terms, x.NodeShape))

end Stmt

/-- All nodes of the program have a shape: those of its statements, at any depth, and those of the
expressions in these. -/
def Program.Shaped (p : Program) : Prop := ∀ s ∈ Stmt.nestedAll p, s.NodeShape

instance (p : Program) : Decidable p.Shaped :=
  inferInstanceAs (Decidable (∀ s ∈ Stmt.nestedAll p, s.NodeShape))

/-! ## Shapes of parts

A tree has a shape if its node does and its parts have one. -/

namespace Expr

/-- A literal has a shape. -/
@[simp] theorem shaped_lit {l : Literal} : (lit l).Shaped := everywhere_lit.mpr trivial

/-- A variable has a shape. -/
@[simp] theorem shaped_ident {name : String} : (ident name).Shaped := everywhere_ident.mpr trivial

/-- A place inside a value has a shape if there is a step to it and the indices have one. -/
@[simp] theorem shaped_property {base : String} {path : List Step} :
    (property base path).Shaped ↔ 1 ≤ path.length ∧ ∀ e, .index e ∈ path → e.Shaped :=
  everywhere_property

/-- A name with the steps behind it has a shape if the indices do. -/
theorem shaped_ofPath {root : String} {path : List Step} :
    (Reference.ofPath root path).toExpr.Shaped ↔ ∀ e, .index e ∈ path → e.Shaped := by
  cases path with
  | nil => exact iff_of_true shaped_ident (by simp)
  | cons step path => exact shaped_property.trans (and_iff_right (Nat.le_add_left 1 _))

/-- A call has a shape if the arguments do. -/
@[simp] theorem shaped_call {f : String} {args : List Expr} :
    (call f args).Shaped ↔ ∀ e ∈ args, e.Shaped :=
  everywhere_call.trans (and_iff_right trivial)

/-- An object has a shape if the values in it do. -/
@[simp] theorem shaped_object {es : List (String × Expr)} :
    (object es).Shaped ↔ ∀ entry ∈ es, entry.2.Shaped :=
  everywhere_object.trans (and_iff_right trivial)

/-- An arithmetic step has a shape if it may have its operands, and they have one. -/
@[simp] theorem shaped_arith {l r : Expr} {op : ArithOp} :
    (arith l op r).Shaped ↔ (arith l op r).NodeShape ∧ l.Shaped ∧ r.Shaped :=
  everywhere_arith

/-- A concatenation has a shape if it may have its parts, and they have one. -/
@[simp] theorem shaped_concat {parts : List Expr} :
    (concat parts).Shaped ↔ (concat parts).NodeShape ∧ ∀ e ∈ parts, e.Shaped :=
  everywhere_concat

/-- A comparison has a shape if its sides are arithmetic and have one. -/
@[simp] theorem shaped_compare {l r : Expr} {op : CompareOp} :
    (compare l op r).Shaped ↔ (compare l op r).NodeShape ∧ l.Shaped ∧ r.Shaped :=
  everywhere_compare

/-- A group without a right side has a shape if it is one operand in parentheses, and that has a
shape and is no group. -/
@[simp] theorem shaped_single {e : Expr} {op : Option Combinator} {b : Bool} :
    (group e op none b).Shaped ↔ (op = none ∧ b = true ∧ e.isGroup = false) ∧ e.Shaped := by
  refine everywhere_single.trans (and_congr_left' ?_)
  constructor
  · intro h
    have hop : op = none := by simpa using h.right_iff
    exact ⟨hop, h.single hop⟩
  · rintro ⟨rfl, rfl, he⟩
    exact ⟨Iff.rfl, fun _ => ⟨rfl, he⟩, nofun, by simp, nofun⟩

/-- How tightly an expression holds together: a group that does not stand in parentheses as tightly
as its combinator, a term more tightly than any. -/
def precedence (e : Expr) : Nat := e.bare?.elim 3 Combinator.precedence

/-- Terms are no groups without parentheses. -/
theorem bare?_of_isTerm {e : Expr} (h : e.isTerm = true) : e.bare? = none := by
  cases e with
  | group l op r b =>
      obtain rfl : b = true := h
      rfl
  | _ => rfl

/-- All other expressions that have a shape are terms. -/
theorem isTerm_iff {e : Expr} (h : e.NodeShape) : e.isTerm = true ↔ e.bare? = none := by
  refine ⟨bare?_of_isTerm, fun hbare => ?_⟩
  cases e with
  | group l op r b =>
      cases b with
      | true => rfl
      | false => exact (h.single hbare).1
  | _ => rfl

/-- The operands of a group hold together tightly enough: the left one as tightly as the combinator,
the right one more tightly. -/
theorem groupShape_iff {l r : Expr} {op : Combinator} {b : Bool} (hr : r.NodeShape) :
    GroupShape l (some op) (some r) b ↔
      op.precedence ≤ l.precedence ∧ op.precedence < r.precedence := by
  have hterm := isTerm_iff hr
  have hshape : GroupShape l (some op) (some r) b ↔
      (op = .and → r.bare? = none) ∧
      (op = .or ∨ op = .not → r.bare? = none ∨ r.bare? = some .and) ∧
      (op = .and → l.bare? ≠ some .or ∧ l.bare? ≠ some .not) := by
    constructor
    · rintro ⟨-, -, hand, hother, hleft⟩
      exact ⟨by simpa [hterm] using hand, by simpa [hterm] using hother, by simpa using hleft⟩
    · rintro ⟨hand, hother, hleft⟩
      exact ⟨by simp, nofun, by simpa [hterm] using hand, by simpa [hterm] using hother,
        by simpa using hleft⟩
  rw [hshape]
  unfold precedence
  rcases l.bare? with _ | _ | _ | _ <;> rcases r.bare? with _ | _ | _ | _ <;> cases op <;> decide

/-- Two operands and a combinator have a shape if the operands do and hold together tightly
enough. -/
@[simp] theorem shaped_group {l r : Expr} {op : Combinator} {b : Bool} :
    (group l (some op) (some r) b).Shaped ↔
      (op.precedence ≤ l.precedence ∧ op.precedence < r.precedence) ∧ l.Shaped ∧ r.Shaped :=
  everywhere_group.trans (and_congr_left fun h => groupShape_iff h.2.node)

/-- A right side needs a combinator. -/
theorem not_shaped_group {l r : Expr} {b : Bool} : ¬ (group l none (some r) b).Shaped := fun h =>
  absurd (Everywhere.node h).right_iff (by simp)

/-- Primaries are arithmetic. -/
theorem isArith_of_isPrimary {e : Expr} (h : e.isPrimary = true) : e.isArith = true := by
  cases e <;> first | rfl | cases h

/-- Arithmetic is a term. -/
theorem isTerm_of_isArith {e : Expr} (h : e.isArith = true) : e.isTerm = true := by
  cases e <;> first | rfl | cases h

/-- Terms hold together more tightly than any combinator. -/
theorem precedence_of_isTerm {e : Expr} (h : e.isTerm = true) : e.precedence = 3 := by
  rw [precedence, bare?_of_isTerm h]
  rfl

/-- Every combinator holds together as tightly as `or` and `not`. -/
theorem one_le_precedence (e : Expr) : 1 ≤ e.precedence := by
  unfold precedence
  rcases e.bare? with _ | _ | _ | _ <;> decide

/-! ### Chains -/

/-- Arithmetic from the left has a shape if what it begins with may be an operand of its first
step. -/
theorem foldLinks_shaped {first : Expr} {links : List (ArithOp × Expr)}
    (hfirst : first.isArith = true ∧ first.Shaped)
    (hadd : ∀ l ∈ links.head?, l.1 = .add → first.isText = false ∧ first.isConcat = false)
    (hlinks : ∀ l ∈ links, l.2.isPrimary = true ∧ l.2.Shaped) :
    (foldLinks first links).isArith = true ∧ (foldLinks first links).Shaped := by
  induction links generalizing first with
  | nil => exact hfirst
  | cons l links ih =>
      obtain ⟨hl, hlinks⟩ := List.forall_mem_cons.mp hlinks
      refine ih ⟨rfl, ?_⟩ (fun _ _ _ => ⟨rfl, rfl⟩) hlinks
      exact shaped_arith.mpr ⟨⟨hl.1, hfirst.1, hadd l rfl⟩, hfirst.2, hl.2⟩

/-- An arithmetic chain of primaries has a shape. -/
theorem ofLinks_shaped {first : Expr} {links : List (ArithOp × Expr)}
    (hfirst : first.isPrimary = true ∧ first.Shaped)
    (hlinks : ∀ l ∈ links, l.2.isPrimary = true ∧ l.2.Shaped) :
    (ofLinks first links).isArith = true ∧ (ofLinks first links).Shaped := by
  unfold ofLinks
  split
  · rename_i h
    -- the additions to a text are the parts of a concatenation, and no addition follows it
    have hparts : ∀ e ∈ (links.takeWhile adds).map Prod.snd, e.isPrimary = true ∧ e.Shaped := by
      simp only [List.forall_mem_map]
      exact fun l hl => hlinks l (List.takeWhile_subset _ hl)
    have hconcat : (concat (first :: (links.takeWhile adds).map Prod.snd)).Shaped := by
      refine shaped_concat.mpr ⟨⟨?_, ?_, fun e he => (hparts e he).1⟩, ?_⟩
      · simpa [Nat.succ_le_iff, List.length_pos_iff] using h.2
      · rintro _ ⟨⟩
        exact h.1
      · exact List.forall_mem_cons.mpr ⟨hfirst.2, fun e he => (hparts e he).2⟩
    refine foldLinks_shaped ⟨rfl, hconcat⟩ ?_ fun l hl => hlinks l (List.dropWhile_subset _ hl)
    intro l hl hadd
    have := List.head?_dropWhile_not adds links
    rw [hl] at this
    simp [adds, hadd] at this
  · rename_i h
    refine foldLinks_shaped ⟨isArith_of_isPrimary hfirst.1, hfirst.2⟩ ?_ hlinks
    intro l hl hadd
    constructor
    · refine Bool.eq_false_iff.mpr fun htext => h ⟨htext, ?_⟩
      rcases links with _ | ⟨l', links⟩
      · cases hl
      · obtain rfl : l' = l := Option.some.inj hl
        rw [List.takeWhile_cons_of_pos (by simp [adds, hadd])]
        exact List.cons_ne_nil _ _
    · rcases first <;> first | rfl | cases hfirst.1

/-- A run of terms may stand to the right of what is before it. -/
theorem joinRun_shaped {before : Option (Expr × Combinator)} {run : Expr}
    (hbefore : ∀ l ∈ before, l.2.precedence = 1 ∧ l.1.Shaped)
    (hrun : 2 ≤ run.precedence ∧ run.Shaped) : (joinRun before run).Shaped := by
  rcases before with _ | ⟨left, op⟩
  · exact hrun.2
  · obtain ⟨hop, hleft⟩ := hbefore _ rfl
    have hprec : op.precedence ≤ left.precedence ∧ op.precedence < run.precedence := by
      rw [hop]
      exact ⟨one_le_precedence left, hrun.1⟩
    exact shaped_group.mpr ⟨hprec, hleft, hrun.2⟩

/-- Terms joined by combinators have a shape if the terms do. -/
theorem joinFrom_shaped {before : Option (Expr × Combinator)} {run : Expr}
    {links : List (Combinator × Expr)} (hbefore : ∀ l ∈ before, l.2.precedence = 1 ∧ l.1.Shaped)
    (hrun : 2 ≤ run.precedence ∧ run.Shaped)
    (hlinks : ∀ l ∈ links, l.2.isTerm = true ∧ l.2.Shaped) : (joinFrom before run links).Shaped := by
  induction links generalizing before run with
  | nil => exact joinRun_shaped hbefore hrun
  | cons l links ih =>
      obtain ⟨op, e⟩ := l
      obtain ⟨⟨hterm, he⟩, hmore⟩ := List.forall_mem_cons.mp hlinks
      have hprec : e.precedence = 3 := precedence_of_isTerm hterm
      by_cases hop : op = .and
      · subst hop
        refine ih hbefore ⟨Nat.le_refl 2, shaped_group.mpr ⟨⟨hrun.1, ?_⟩, hrun.2, he⟩⟩ hmore
        exact hprec.symm ▸ Nat.lt_succ_self 2
      · rw [joinFrom_cons_of_ne_and _ _ _ hop]
        refine ih ?_ ⟨hprec.symm ▸ Nat.le_succ 2, he⟩ hmore
        rintro _ ⟨⟩
        refine ⟨?_, joinRun_shaped hbefore hrun⟩
        cases op <;> first | rfl | exact absurd rfl hop

end Expr

/-! ## Derivations -/

namespace Derives

/-- An expression in parentheses is a term and keeps its shape. -/
theorem shaped_parenthesize {e : Expr} (h : e.Shaped) :
    e.parenthesize.isTerm = true ∧ e.parenthesize.Shaped := by
  cases e with
  | group l op r b =>
      refine ⟨rfl, ?_⟩
      match op, r with
      | none, none =>
          obtain ⟨⟨-, -, hl⟩, h⟩ := Expr.shaped_single.mp h
          exact Expr.shaped_single.mpr ⟨⟨rfl, rfl, hl⟩, h⟩
      | some _, none => exact absurd (Expr.shaped_single.mp h).1.1 nofun
      | none, some _ => exact absurd h Expr.not_shaped_group
      | some _, some _ => exact Expr.shaped_group.mpr (Expr.shaped_group.mp h)
  | _ => exact ⟨rfl, Expr.shaped_single.mpr ⟨⟨rfl, rfl, rfl⟩, h⟩⟩

/-- At each level of the grammar the expressions are of that kind and have a shape. -/
theorem levels_shaped :
    Levels (fun _ e => e.isPrimary = true ∧ e.Shaped) (fun _ e => e.isArith = true ∧ e.Shaped)
      (fun _ e => e.isTerm = true ∧ e.Shaped) (fun _ e => e.Shaped) where
  lit _ := ⟨rfl, Expr.shaped_lit⟩
  call _ hargs := ⟨rfl, Expr.shaped_call.mpr fun e he => (hargs e he).elim fun _ h => h.2⟩
  place {ts r} hplace hpath := by
    obtain ⟨_, _, _, path, _, rfl, _⟩ := hplace.exists_path
    rw [Reference.steps_ofPath] at hpath
    refine ⟨by cases path <;> rfl, ?_⟩
    exact Expr.shaped_ofPath.mpr fun e he => (hpath e he).elim fun _ h => h.2
  object hentries :=
    ⟨rfl, Expr.shaped_object.mpr fun entry hentry => (hentries entry hentry).elim fun _ h => h.2⟩
  arith hfirst hlinks := Expr.ofLinks_shaped hfirst fun l hl => (hlinks l hl).elim fun _ h => h.2
  parens he := shaped_parenthesize he
  value he := ⟨Expr.isTerm_of_isArith he.1, he.2⟩
  compare hl hr := ⟨rfl, Expr.shaped_compare.mpr ⟨⟨hl.1, hr.1⟩, hl.2, hr.2⟩⟩
  boolean hfirst hlinks := by
    refine Expr.joinFrom_shaped nofun ⟨?_, hfirst.2⟩ fun l hl => (hlinks l hl).elim fun _ h => h.2
    rw [Expr.precedence_of_isTerm hfirst.1]
    exact Nat.le_succ 2

/-- All expressions that are derived have a shape. -/
theorem Boolean.shaped {ts : List Token} {e : Expr} (h : Boolean ts e) : e.Shaped :=
  levels_shaped.of_boolean h

end Derives

/-! ### Statements -/

/-- A statement has a shape if its node, its operands and its bodies do. -/
theorem Stmt.shaped_iff {s : Stmt} :
    Program.Shaped [s] ↔ (∀ b ∈ s.bodies, b ≠ [] ∧ Program.Shaped b) ∧
      (∀ item ∈ s.items, item.isItem = true) ∧ ∀ e ∈ s.operands, e.Shaped := by
  have hnested : Stmt.nestedAll [s] = s.nested := List.append_nil _
  unfold Program.Shaped
  rw [hnested, Stmt.nested_eq, List.forall_mem_cons, List.forall_mem_flatMap]
  unfold NodeShape terms
  rw [List.forall_mem_flatMap]
  constructor
  · rintro ⟨⟨hne, hitems, hterms⟩, hbodies⟩
    exact ⟨fun b hb => ⟨hne b hb, hbodies b hb⟩, hitems, hterms⟩
  · rintro ⟨hbodies, hitems, hterms⟩
    exact ⟨⟨fun b hb => (hbodies b hb).1, hitems, hterms⟩, fun b hb => (hbodies b hb).2⟩

/-- A program has a shape if all its statements do. -/
theorem Program.shaped_iff {p : Program} : p.Shaped ↔ ∀ s ∈ p, Program.Shaped [s] := by
  induction p with
  | nil => simp [Program.Shaped, Stmt.nestedAll]
  | cons s p ih =>
      rw [List.forall_mem_cons, ← ih]
      simp [Program.Shaped, Stmt.nestedAll, or_imp, forall_and]

namespace Derives

section statements

variable {ts : List Token}

/-- Every item of an array is a text or a number. -/
theorem ArrayItem.isItem {item : Literal} (h : ArrayItem ts item) : item.isItem = true := by
  cases h with
  | @mk t _ hitem =>
      rcases hk : t.kind <;> rw [hk] at hitem <;> cases hitem <;> rfl

/-- Every item that a loop runs through is a text or a number. -/
theorem Statement.isItem {s : Stmt} (h : Statement ts s) :
    ∀ item ∈ s.items, item.isItem = true := by
  cases h with
  | eachItem hitems _ =>
      intro item hitem
      obtain ⟨_, _, h⟩ := hitems.exists_of_mem item hitem
      exact h.isItem
  | _ => exact List.forall_mem_nil _

/-- No body is empty. -/
theorem Body.ne_nil {b : List Stmt} (h : Body ts b) : b ≠ [] := by
  cases h with
  | mk => exact List.cons_ne_nil _ _

/-- The node of a statement that is derived has a shape. -/
theorem Statement.nodeShape {s : Stmt} (h : Statement ts s) : s.NodeShape := by
  refine ⟨fun b hb => ?_, h.isItem, List.forall_mem_flatMap.mpr fun e he => ?_⟩
  · obtain ⟨_, _, _, _, _, hbody⟩ := h.exists_body b hb
    exact hbody.ne_nil
  · obtain ⟨_, _, hboolean⟩ := h.exists_operand e he
    exact hboolean.shaped

/-- All programs that are derived have a shape. -/
theorem Program.shaped {p : Edict.Program} (h : Program ts p) : p.Shaped := by
  intro s hs
  obtain ⟨_, _, hstatement⟩ := h.exists_statement s hs
  exact hstatement.nodeShape

end statements

end Derives

/-! ## What is read -/

/-- Every program that is read, from whatever tokens, has a shape.  No body is empty, and loops over
literals have texts and numbers only.  In every expression, at any depth, a property has a step; the
sides of comparisons are arithmetic, and arithmetic nests on its left; a concatenation has at least
two parts and begins with a text; a group has a combinator if and only if it has a right side,
stands in parentheses if it has neither, and has operands that bind tightly enough to need no
others. -/
theorem readProgram_shaped {ts : List Token} {p : Program} (h : readProgram ts = .ok p) :
    p.Shaped := by
  obtain ⟨_, ⟨_, hderives, _⟩, _⟩ := readProgram_sound ts h
  exact hderives.shaped

/-- `if (a or b) and c.d == 1 - 2 then e = 't' + x`: a group in parentheses, a comparison of
arithmetic and a concatenation. -/
theorem readProgram_shaped_branch :
    let ts : List Token := [.keyword .ifKw, .symbol .lparen, .ident "a", .combinator .or,
      .ident "b", .symbol .rparen, .combinator .and, .ident "c", .symbol .dot, .ident "d",
      .symbol .eqEq, .number (.ofWritten false 1), .symbol .minus, .number (.ofWritten false 2),
      .keyword .thenKw, .ident "e", .symbol .eq, .text "t", .symbol .plus, .ident "x"].map
        (Token.mk · Span.nowhere)
    let p : Program := [.branch
      (.joined (.group (.ident "a") (some .or) (some (.ident "b")) true) .and
        (.compare (.property "c" [.field "d"]) .eq
          (.arith (.lit (.number 1)) .sub (.lit (.number 2)))))
      [.assign (.ident "e") .set (.concat [.lit (.text "t"), .ident "x"])] none]
    readProgram ts = .ok p ∧ p.Shaped := by
  intro ts p
  have hread : readProgram ts = .ok p := by with_unfolding_all rfl
  exact ⟨hread, readProgram_shaped hread⟩

end Edict

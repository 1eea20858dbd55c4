import Edict.Proofs.Grammar.ExpressionPrinting
import Edict.Proofs.Grammar.Names

/-!
# The tokens of displayed expressions

`Expr.display` is a text, `Expr.shown` are its tokens: `Expr.shows` says that the scan takes just
these off the text, in front of whatever may stand behind a value.  That needs the words in the
expression to be ones that the language has (`Expr.Legible`): names that are not reserved, texts
without the quote that they are shown in, and finite numbers.

## Main definitions

* `Expr.shown`: the tokens of a displayed expression.
* `Expr.NodeLegible`, `Expr.Legible`: the words in a node, or in all nodes, are ones of the
  language.

## Main statements

* `Expr.shows`: a legible expression shows its tokens.  Whether these are an expression again is not
  asked here.
-/

namespace Edict

/-! ## The tokens -/

mutual

/-- The tokens of the text of an expression. -/
def Expr.shown : Expr → List Token
  | .lit l => [l.word.token]
  | .ident name => [(TokenKind.ident name).token]
  | .property base path => (TokenKind.ident base).token :: Step.shownAll path
  | .call f args =>
      (TokenKind.ident f).token :: Symbol.lparen.token ::
        ([Symbol.comma.token].intercalate (Expr.shownAll args) ++ [Symbol.rparen.token])
  | .object entries =>
      Symbol.lbrace.token ::
        ([Symbol.comma.token].intercalate (Expr.shownEntries entries) ++ [Symbol.rbrace.token])
  | .arith l op r =>
      Symbol.lparen.token :: ((l.shown ++ op.sign.token :: r.shown) ++ [Symbol.rparen.token])
  | .concat parts =>
      (TokenKind.ident "concat").token :: Symbol.lparen.token ::
        ([Symbol.comma.token].intercalate (Expr.shownAll parts) ++ [Symbol.rparen.token])
  | .compare l op r => l.shown ++ op.word.token :: r.shown
  | .group l (some op) (some r) _ =>
      Symbol.lparen.token ::
        ((l.shown ++ (TokenKind.combinator op).token :: r.shown) ++ [Symbol.rparen.token])
  | .group l _ _ _ => l.shown

/-- The tokens of the texts of several expressions. -/
def Expr.shownAll : List Expr → List (List Token)
  | [] => []
  | e :: es => e.shown :: Expr.shownAll es

/-- The tokens of the texts of the entries of an object. -/
def Expr.shownEntries : List (String × Expr) → List (List Token)
  | [] => []
  | (name, e) :: es =>
      ((TokenKind.text name).token :: Symbol.colon.token :: e.shown) :: Expr.shownEntries es

/-- The tokens of the text of a path. -/
def Step.shownAll : List Step → List Token
  | [] => []
  | .field name :: path => Symbol.dot.token :: (TokenKind.ident name).token :: Step.shownAll path
  | .index e :: path =>
      Symbol.lbracket.token :: ((e.shown ++ [Symbol.rbracket.token]) ++ Step.shownAll path)

end

/-- A group of a single operand has the tokens of its operand. -/
theorem Expr.shown_single (e : Expr) (combinator : Option Combinator) (b : Bool) :
    (group e combinator none b).shown = e.shown := by
  cases combinator <;> rfl

/-! ## Words that can be shown -/

namespace Expr

/-- The texts that a node writes between quotes: a text or the names of entries. -/
def ownTexts : Expr → List String
  | .lit (.text s) => [s]
  | .object entries => entries.map (·.1)
  | _ => []

/-- The number that a node is. -/
def number? : Expr → Option Float
  | .lit (.number x) => some x
  | _ => none

/-- The words of a node are words of the language when they are shown. -/
structure NodeLegible (e : Expr) : Prop where
  names : ∀ s ∈ e.ownNames, IsName s
  texts : ∀ s ∈ e.ownTexts, '\'' ∉ s.toList
  numbers : ∀ x ∈ e.number?, x.isFinite = true ∧ Number.ofText? (Number.text x) = some x

/-- The words of all nodes of the expression are. -/
def Legible (e : Expr) : Prop := e.Everywhere NodeLegible

end Expr

/-! ## What is shown is scanned -/

/-- The word of a literal. -/
theorem Literal.shows {l : Literal} (h : (Expr.lit l).NodeLegible) :
    Shows l.display [l.word.token] := by
  cases l with
  | text s => exact .quoted (h.texts s List.mem_cons_self)
  | number x =>
      obtain ⟨hfinite, hread⟩ := h.numbers x rfl
      exact .number hfinite hread
  | bool b => exact .reserved (by cases b <;> decide)

/-- An operator between two values, in parentheses. -/
theorem Shows.group {s s' o : String} {ts us : List Token} {k : TokenKind} (hs : Shows s ts)
    (ho : Spells.IsOperator k o) (hs' : Shows s' us) :
    Shows ("(" ++ s ++ " " ++ o ++ " " ++ s' ++ ")")
      (Symbol.lparen.token :: ((ts ++ k.token :: us) ++ [Symbol.rparen.token])) := by
  intro rest _
  have hinner : Shows (s ++ " " ++ o ++ " " ++ s') (ts ++ k.token :: us) := hs.operation ho hs'
  have hparens : Spells _ rest (Symbol.lparen.token :: (_ ++ [Symbol.rparen.token])) :=
    hinner.parens rest
  simpa using hparens

/-- The sign of an arithmetic operator is an operator. -/
theorem ArithOp.isOperator (op : ArithOp) :
    Spells.IsOperator (.symbol op.sign) op.symbol := by
  cases op <;> exact .inl (by decide)

/-- The word of a comparison is an operator. -/
theorem CompareOp.isOperator (op : CompareOp) : Spells.IsOperator op.word op.symbol := by
  cases op with
  | isIn => exact .inr (by decide)
  | _ => exact .inl (by decide)

/-- The word of a combinator is an operator. -/
theorem Combinator.isOperator (op : Combinator) :
    Spells.IsOperator (.combinator op) op.keyword := by
  cases op <;> exact .inr (by decide)

/-- A name and what stands in parentheses behind it. -/
theorem Shows.application {f s : String} {ts : List Token} (hf : IsName f) (hs : Shows s ts) :
    Shows (f ++ "(" ++ s ++ ")")
      ((TokenKind.ident f).token :: Symbol.lparen.token :: (ts ++ [Symbol.rparen.token])) := by
  intro rest _
  have hparens : Spells ("(" ++ s ++ ")").toList rest
      (Symbol.lparen.token :: (ts ++ [Symbol.rparen.token])) :=
    hs.parens rest
  have hname : Spells f.toList (("(" ++ s ++ ")").toList ++ rest) [(TokenKind.ident f).token] := by
    refine .name hf ?_
    rw [String.toList_append, String.toList_append]
    rintro _ ⟨⟩
    decide
  simpa using hname.append hparens

/-- Concatenations are shown like calls of this function. -/
theorem isName_concat : IsName "concat" :=
  .of_chars (by decide : _ = ['c', 'o', 'n', 'c', 'a', 't']) (by decide) (by decide) (by decide)

/-- No name goes on with a path. -/
theorem Step.head_displayAll (path : List Step) {rest : List Char} (hrest : Closes rest) :
    ∀ c ∈ ((Step.displayAll path).toList ++ rest).head?, Rule.continuesName c = false := by
  cases path with
  | nil => exact hrest.not_continuesName
  | cons step path =>
      cases step with
      | field name =>
          rw [Step.displayAll, String.toList_append, String.toList_append]
          rintro _ ⟨⟩
          decide
      | index e =>
          rw [Step.displayAll, String.toList_append, String.toList_append, String.toList_append]
          rintro _ ⟨⟩
          decide

mutual

/-- The text of a legible expression is scanned as the tokens that it shows. -/
theorem Expr.shows : ∀ e : Expr, e.Legible → Shows e.display e.shown
  | .lit l, h => l.shows h.node
  | .ident name, h => fun _ hrest =>
      .name (h.node.names name List.mem_cons_self) hrest.not_continuesName
  | .property base path, h => by
      obtain ⟨hnode, hpath⟩ := Expr.everywhere_property.mp h
      obtain ⟨hroot, hfields⟩ := List.forall_mem_cons.mp hnode.names
      intro rest hrest
      have hsteps := Step.showsAll path (List.forall_mem_filterMap.mp hfields) hpath rest hrest
      have hname : Spells base.toList _ [(TokenKind.ident base).token] :=
        .name hroot (Step.head_displayAll path hrest)
      simpa [Expr.display, Expr.shown] using hname.append hsteps
  | .call f args, h => by
      obtain ⟨hnode, hargs⟩ := Expr.everywhere_call.mp h
      exact .application (hnode.names f List.mem_cons_self) (.commaSeparated (Expr.showsAll args hargs))
  | .object entries, h => by
      obtain ⟨hnode, hentries⟩ := Expr.everywhere_object.mp h
      have hnames : ∀ entry ∈ entries, '\'' ∉ entry.1.toList :=
        fun entry hentry => hnode.texts entry.1 (List.mem_map_of_mem hentry)
      have hshows := Expr.showsEntries entries hnames hentries
      exact fun rest _ => (Shows.commaSeparated hshows).braces rest
  | .arith l op r, h => by
      obtain ⟨-, hl, hr⟩ := Expr.everywhere_arith.mp h
      rw [Expr.display, Expr.shown]
      exact (Expr.shows l hl).group op.isOperator (Expr.shows r hr)
  | .concat parts, h => by
      obtain ⟨-, hparts⟩ := Expr.everywhere_concat.mp h
      have hword : "concat(" = "concat" ++ "(" := by decide
      rw [Expr.display, Expr.shown, hword]
      exact .application isName_concat (.commaSeparated (Expr.showsAll parts hparts))
  | .compare l op r, h => by
      obtain ⟨-, hl, hr⟩ := Expr.everywhere_compare.mp h
      have hshows : Shows (l.display ++ " " ++ op.symbol ++ " " ++ r.display)
          (l.shown ++ op.word.token :: r.shown) :=
        (Expr.shows l hl).operation op.isOperator (Expr.shows r hr)
      simpa only [Expr.display, Expr.shown] using hshows
  | .group e _ none _, h => by
      rw [Expr.display_single, Expr.shown_single]
      exact Expr.shows e (Expr.everywhere_single.mp h).2
  | .group l none (some _) _, h => Expr.shows l (Expr.everywhere_group.mp h).2.1
  | .group l (some op) (some r) _, h => by
      obtain ⟨-, hl, hr⟩ := Expr.everywhere_group.mp h
      rw [Expr.display, Expr.shown]
      exact (Expr.shows l hl).group op.isOperator (Expr.shows r hr)

/-- The same for several expressions. -/
theorem Expr.showsAll : ∀ es : List Expr, (∀ e ∈ es, e.Legible) →
    List.Forall₂ Shows (Expr.displayAll es) (Expr.shownAll es)
  | [], _ => .nil
  | e :: es, h => by
      obtain ⟨he, hes⟩ := List.forall_mem_cons.mp h
      exact .cons (Expr.shows e he) (Expr.showsAll es hes)

/-- The same for the entries of an object. -/
theorem Expr.showsEntries : ∀ es : List (String × Expr), (∀ entry ∈ es, '\'' ∉ entry.1.toList) →
    (∀ entry ∈ es, entry.2.Legible) →
      List.Forall₂ Shows (Expr.displayEntries es) (Expr.shownEntries es)
  | [], _, _ => .nil
  | (name, e) :: es, hnames, h => by
      obtain ⟨hname, hnames⟩ := List.forall_mem_cons.mp hnames
      obtain ⟨he, hes⟩ := List.forall_mem_cons.mp h
      refine .cons (fun rest hrest => ?_) (Expr.showsEntries es hnames hes)
      have hvalue := Spells.blank.append (Expr.shows e he rest hrest)
      have hcolon : ∀ cs, Spells Symbol.colon.spelling.toList cs [Symbol.colon.token] :=
        fun _ => .sole (by decide)
      have hentry : ∀ cs, Spells (quoted name).toList cs [(TokenKind.text name).token] :=
        fun _ => .quoted hname
      simpa [Symbol.spelling] using (hentry _).append ((hcolon _).append hvalue)

/-- The same for a path. -/
theorem Step.showsAll : ∀ path : List Step,
    (∀ step ∈ path, ∀ name, step.field? = some name → IsName name) →
    (∀ e, .index e ∈ path → e.Legible) →
      ∀ rest, Closes rest → Spells (Step.displayAll path).toList rest (Step.shownAll path)
  | [], _, _, _, _ => .nil
  | .field name :: path, hnames, h, rest, hrest => by
      obtain ⟨hname, hnames⟩ := List.forall_mem_cons.mp hnames
      have hsteps := Step.showsAll path hnames (fun e he => h e (List.mem_cons_of_mem _ he)) rest hrest
      have hfield : Spells name.toList _ [(TokenKind.ident name).token] :=
        .name (hname name rfl) (Step.head_displayAll path hrest)
      have hdot : ∀ cs, Spells Symbol.dot.spelling.toList cs [Symbol.dot.token] :=
        fun _ => .sole (by decide)
      simpa [Step.displayAll, Step.shownAll, Symbol.spelling] using
        (hdot _).append (hfield.append hsteps)
  | .index e :: path, hnames, h, rest, hrest => by
      obtain ⟨-, hnames⟩ := List.forall_mem_cons.mp hnames
      have hsteps := Step.showsAll path hnames (fun e he => h e (List.mem_cons_of_mem _ he)) rest hrest
      have hindex : ∀ cs, Spells ("[" ++ e.display ++ "]").toList cs
          (Symbol.lbracket.token :: (e.shown ++ [Symbol.rbracket.token])) :=
        (Expr.shows e (h e List.mem_cons_self)).brackets
      simpa [Step.displayAll, Step.shownAll] using (hindex _).append hsteps

end

end Edict

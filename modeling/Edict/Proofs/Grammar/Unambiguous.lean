import Edict.Proofs.Grammar.Forms
import Edict.Proofs.Grammar.Redisplay
import Edict.Proofs.Number.Shortest

/-!
# Displayed expressions can be told apart

Two expressions of one text are the same tree up to the parentheses that are not shown
(`Program.regrouped_of_display_eq`): comparisons have none, but no side of a comparison is one, and
what is joined by anything else stands in parentheses.

The proof goes along the text.  Of two expressions that begin two equal texts the first words tell
that they are of one form (`Expr.ofChars_display`).  Their parts begin equal texts, one after the
other; so these are the same, and what stands behind them is the same.  For this it matters what may
follow: whatever may stand behind a value, if no comparison does (`Follows`).

## Main definitions

* `Follows`, `JoinsPair`: what may stand behind an operand, and the signs that join two.
* `Expr.Agree`: two expressions that begin equal texts are the same up to parentheses that are not
  shown, and so are the rests.
* `Expr.Alone`, `Expr.Told`: an expression agrees with each one that is not a comparison, or with
  each one at all, if what follows is no comparison.

## Main statements

* `Expr.told`: every readable expression, by recursion on the tree with one lemma for each form.
* `Program.regrouped_of_display_eq`: any two expressions anywhere in two programs whose nodes are
  plain.
-/

namespace Edict

open Rule

/-! ## What follows an expression -/

/-- An operator between its blanks. -/
def spaced (o : String) : List Char := ' ' :: (o.toList ++ [' '])

/-- Operators between blanks can be told apart. -/
theorem spaced_eq_of_append_eq {o o' : String} (ho : ' ' ∉ o.toList) (ho' : ' ' ∉ o'.toList)
    {rest rest' : List Char} (h : spaced o ++ rest = spaced o' ++ rest') : o = o' ∧ rest = rest' := by
  have hchars : ∀ (u : String) (rest : List Char),
      spaced u ++ rest = ' ' :: (u.toList ++ ' ' :: rest) := by simp [spaced]
  rw [hchars, hchars] at h
  exact eq_of_append_mark_eq ho ho' (List.cons.inj h).2

/-- No comparison has a blank in its sign. -/
theorem CompareOp.blank_not_mem (op : CompareOp) : ' ' ∉ op.symbol.toList := by
  cases op <;> decide

/-- An operator may stand behind a value. -/
theorem closes_spaced (o : String) (rest : List Char) : Closes (spaced o ++ rest) := by
  rintro _ ⟨⟩
  decide

/-- An operator that joins operands in parentheses, and compares nothing. -/
structure JoinsPair (o : String) : Prop where
  blank_not_mem : ' ' ∉ o.toList
  ne_symbol : ∀ op : CompareOp, o ≠ op.symbol

/-- Arithmetic joins two operands in parentheses. -/
theorem joinsPair_symbol (op : ArithOp) : JoinsPair op.symbol := by
  refine ⟨by cases op <;> decide, fun compare => ?_⟩
  cases op <;> cases compare <;> decide

/-- So do the combinators. -/
theorem joinsPair_keyword (op : Combinator) : JoinsPair op.keyword := by
  refine ⟨by cases op <;> decide, fun compare => ?_⟩
  cases op <;> cases compare <;> decide

/-- What may stand behind an expression: what may stand behind a value, but no comparison. -/
structure Follows (rest : List Char) : Prop where
  closes : Closes rest
  not_compared : ∀ (op : CompareOp) (more : List Char), rest ≠ spaced op.symbol ++ more

namespace Follows

/-- Nothing at all may follow. -/
theorem nil : Follows [] := ⟨nofun, nofun⟩

/-- A comma or a closing bracket. -/
theorem cons {c : Char} (hc : c ∈ [')', ']', '\x7d', ',']) (rest : List Char) :
    Follows (c :: rest) := by
  refine ⟨?_, fun op more heq => ?_⟩
  · rintro _ ⟨⟩
    exact List.mem_cons_of_mem _ hc
  · obtain ⟨rfl, -⟩ := List.cons.inj heq
    simp at hc

/-- An operator that compares nothing. -/
theorem spaced {o : String} (ho : JoinsPair o) (rest : List Char) : Follows (spaced o ++ rest) := by
  refine ⟨closes_spaced o rest, fun op more heq => ?_⟩
  exact ho.ne_symbol op (spaced_eq_of_append_eq ho.blank_not_mem op.blank_not_mem heq).1

end Follows

namespace Expr

/-! ## Agreement -/

/-- Where the texts of both expressions are followed by what is allowed there and the whole is the
same, the expressions are the same up to parentheses, and the same follows. -/
def Agree (allowed : List Char → Prop) (e f : Expr) : Prop :=
  ∀ rest rest', allowed rest → allowed rest' →
    e.display.toList ++ rest = f.display.toList ++ rest' → e.regrouped = f.regrouped ∧ rest = rest'

/-- The expression agrees with every node that is not open, even in front of a comparison. -/
def Alone (e : Expr) : Prop := ∀ f, f.Readable → f.isOpen = false → Agree Closes e f

/-- The expression agrees with every other one. -/
def Told (e : Expr) : Prop := ∀ f, f.Readable → Agree Follows e f

/-- The operand of a group of one, and the expression itself otherwise. -/
def core : Expr → Expr
  | .group e _ none _ => e
  | e => e

/-- The text of an expression is that of its core. -/
theorem display_core (e : Expr) : e.core.display = e.display := by
  cases e with
  | group l op r b =>
      cases r with
      | none => exact (display_single l op b).symm
      | some r => rfl
  | _ => rfl

/-- An expression is regrouped as its core. -/
theorem regrouped_core (e : Expr) : e.core.regrouped = e.regrouped := by
  cases e with
  | group l op r b =>
      cases r with
      | none => exact (regrouped_single l op b).symm
      | some r => rfl
  | _ => rfl

/-- The core of a readable expression is readable; it is open only if it is a comparison. -/
theorem Readable.core {e : Expr} (h : e.Readable) :
    e.core.Readable ∧ (e.core.isOpen = false ∨ ∃ l op r, e.core = .compare l op r) := by
  have hcases : ∀ {g : Expr}, g.isGroup = false → g.isOpen = false ∨ ∃ l op r, g = .compare l op r := by
    intro g hg
    cases g with
    | compare l op r => exact .inr ⟨l, op, r, rfl⟩
    | group => cases hg
    | _ => exact .inl rfl
  cases e with
  | group l op r b =>
      cases r with
      | none =>
          obtain ⟨hnode, hl⟩ := everywhere_single.mp h
          have hop : op = none := by simpa using hnode.shape.right_iff
          exact ⟨hl, hcases (hnode.shape.single hop).2⟩
      | some r =>
          obtain ⟨op, rfl⟩ : ∃ o, op = some o :=
            Option.isSome_iff_exists.mp (h.node.shape.right_iff.mpr rfl)
          exact ⟨h, .inl rfl⟩
  | _ => exact ⟨h, hcases rfl⟩

/-- A readable comparison compares readable expressions that are not open. -/
theorem Readable.compare {l r : Expr} {op : CompareOp} (h : (Expr.compare l op r).Readable) :
    (l.Readable ∧ l.isOpen = false) ∧ r.Readable ∧ r.isOpen = false := by
  obtain ⟨hnode, hl, hr⟩ := everywhere_compare.mp h
  have hopen : ∀ {e : Expr}, e.isArith = true → e.isOpen = false := by
    intro e he
    cases e <;> first | rfl | cases he
  exact ⟨⟨hl, hopen hnode.shape.1⟩, hr, hopen hnode.shape.2⟩

/-- A comparison is shown as its two sides with its sign between them. -/
theorem display_compare (l r : Expr) (op : CompareOp) (rest : List Char) :
    (Expr.compare l op r).display.toList ++ rest =
      l.display.toList ++ (spaced op.symbol ++ (r.display.toList ++ rest)) := by
  simp [display, spaced]

/-- What is not open is told from all others, if it agrees with what is not open either: behind an
open one there would be a comparison. -/
theorem Alone.told {e : Expr} (h : e.Alone) : e.Told := by
  intro f hf rest rest' hrest hrest' heq
  obtain ⟨hcore, hopen | ⟨l, op, r, hcompare⟩⟩ := hf.core
  · rw [← display_core f] at heq
    rw [← regrouped_core f]
    exact h _ hcore hopen _ _ hrest.closes hrest'.closes heq
  · rw [hcompare] at hcore
    obtain ⟨⟨hl, hopen⟩, -⟩ := hcore.compare
    rw [← display_core f, hcompare, display_compare] at heq
    obtain ⟨-, hbehind⟩ := h l hl hopen _ _ hrest.closes (closes_spaced _ _) heq
    exact absurd hbehind (hrest.not_compared op _)

/-- An expression that can be told from those alone can be told from all. -/
theorem Alone.and_told {e : Expr} (h : e.Alone) : (e.isOpen = false → e.Alone) ∧ e.Told :=
  ⟨fun _ => h, h.told⟩

/-- A comparison of two such is told from all others. -/
theorem Alone.compare {l r : Expr} {op : CompareOp} (hl : l.Alone) (hr : r.Alone) :
    (Expr.compare l op r).Told := by
  intro f hf rest rest' hrest hrest' heq
  rw [← display_core f, display_compare] at heq
  rw [← regrouped_core f]
  obtain ⟨hcore, hopen | ⟨l', op', r', hcompare⟩⟩ := hf.core
  · obtain ⟨-, hbehind⟩ := hl _ hcore hopen _ _ (closes_spaced _ _) hrest'.closes heq
    exact absurd hbehind.symm (hrest'.not_compared op _)
  · rw [hcompare] at hcore heq ⊢
    obtain ⟨⟨hl', hlopen⟩, hr', hropen⟩ := hcore.compare
    rw [display_compare] at heq
    obtain ⟨hleft, hbehind⟩ := hl l' hl' hlopen _ _ (closes_spaced _ _) (closes_spaced _ _) heq
    obtain ⟨hop, hmore⟩ := spaced_eq_of_append_eq op.blank_not_mem op'.blank_not_mem hbehind
    obtain ⟨hright, hend⟩ := hr r' hr' hropen _ _ hrest.closes hrest'.closes hmore
    have hsame : op = op' := by
      cases op <;> cases op' <;> first | rfl | exact absurd hop (by decide)
    exact ⟨by rw [regrouped, regrouped, hleft, hsame, hright], hend⟩

/-! ## Nodes -/

/-- A group that is not open has two operands. -/
theorem isPair_of_not_open {l : Expr} {op : Option Combinator} {r : Option Expr} {b : Bool}
    (h : (group l op r b).isOpen = false) : ∃ o s, op = some o ∧ r = some s := by
  match op, r with
  | some o, some s => exact ⟨o, s, rfl, rfl⟩
  | none, _ | some _, none => cases h

/-- Its form is that of two operands in parentheses. -/
theorem form_group {l : Expr} {op : Option Combinator} {r : Option Expr} {b : Bool}
    (h : (group l op r b).isOpen = false) : (group l op r b).form = .pair := by
  obtain ⟨o, s, rfl, rfl⟩ := isPair_of_not_open h
  rfl

/-- Of one form are the nodes that two equal texts begin with. -/
theorem form_eq {e f : Expr} (he : e.Readable) (hf : f.Readable) (heopen : e.isOpen = false)
    (hfopen : f.isOpen = false) {rest rest' : List Char} (hrest : Closes rest)
    (hrest' : Closes rest') (h : e.display.toList ++ rest = f.display.toList ++ rest') :
    e.form = f.form := by
  rw [← ofChars_display he.node heopen hrest, h, ofChars_display hf.node hfopen hrest']

/-- Literals. -/
theorem alone_lit {l : Literal} (h : (lit l).Readable) : (lit l).Alone := by
  intro f hf hopen rest rest' hrest hrest' heq
  have hform := form_eq h hf rfl hopen hrest hrest' heq
  cases l with
  | text s =>
      cases f with
      | lit k =>
          cases k with
          | text t =>
              have hs := h.node.texts s List.mem_cons_self
              have ht := hf.node.texts t List.mem_cons_self
              obtain ⟨rfl, hend⟩ := quoted_eq_of_append_eq hs ht heq
              exact ⟨rfl, hend⟩
          | _ => cases hform
      | group => cases hform.trans (form_group hopen)
      | _ => first | cases hform | cases hopen
  | number x =>
      cases f with
      | lit k =>
          cases k with
          | number y =>
              have hx := h.node.numbers x rfl
              have hy := hf.node.numbers y rfl
              obtain ⟨htext, hend⟩ := Number.eq_of_text_append_eq hx hy hrest hrest' heq
              exact ⟨by rw [Number.text_injective hx hy htext], hend⟩
          | _ => cases hform
      | group => cases hform.trans (form_group hopen)
      | _ => first | cases hform | cases hopen
  | bool b =>
      cases f with
      | lit k =>
          cases k with
          | bool c =>
              cases b <;> cases c <;> first | exact ⟨rfl, List.append_cancel_left heq⟩ | cases heq
          | _ => cases hform
      | group => cases hform.trans (form_group hopen)
      | _ => first | cases hform | cases hopen

/-! ## Lists of parts -/

/-- Expressions are shown one by one. -/
theorem displayAll_eq (es : List Expr) : displayAll es = es.map display := by
  induction es with
  | nil => rfl
  | cons e es ih => rw [displayAll, ih, List.map_cons]

/-- Expressions are regrouped one by one. -/
theorem regroupedAll_eq (es : List Expr) : regroupedAll es = es.map regrouped := by
  induction es with
  | nil => rfl
  | cons e es ih => rw [regroupedAll, ih, List.map_cons]

/-- Entries are shown one by one. -/
theorem displayEntries_eq (es : List (String × Expr)) :
    displayEntries es = es.map fun entry => quoted entry.1 ++ ": " ++ entry.2.display := by
  induction es with
  | nil => rfl
  | cons entry es ih => rw [displayEntries, ih, List.map_cons]

/-- Entries are regrouped one by one. -/
theorem regroupedEntries_eq (es : List (String × Expr)) :
    regroupedEntries es = es.map fun entry => (entry.1, entry.2.regrouped) := by
  induction es with
  | nil => rfl
  | cons entry es ih => rw [regroupedEntries, ih, List.map_cons]

section separated

variable {α β : Type} {shown : α → String} {mean : α → β} {close : Char}

/-- What stands behind the first of several pieces with commas between them. -/
def behindFirst (shown : α → String) (close : Char) (rest : List Char) : List α → List Char
  | [] => close :: rest
  | a :: as => ',' :: ' ' :: ((commaSeparated ((a :: as).map shown)).toList ++ close :: rest)

/-- Pieces with commas between them are the first one and what stands behind it. -/
theorem commaSeparated_cons (a : α) (as : List α) (close : Char) (rest : List Char) :
    (commaSeparated ((a :: as).map shown)).toList ++ close :: rest =
      (shown a).toList ++ behindFirst shown close rest as := by
  cases as with
  | nil => simp [commaSeparated, behindFirst]
  | cons b bs => simp [commaSeparated, behindFirst, String.intercalate_cons_cons]

/-- What stands behind the first piece may follow a value. -/
theorem follows_behindFirst (shown : α → String) (hclose : close ∈ [')', ']', '\x7d'])
    (rest : List Char) (as : List α) : Follows (behindFirst shown close rest as) := by
  cases as with
  | nil => exact .cons (List.mem_append_left [','] hclose) rest
  | cons a as => exact .cons (by simp) _

/-- Pieces with commas between them and a bracket behind can be told apart if the single ones
can. -/
theorem eq_of_commaSeparated_eq (hclose : close ∈ [')', ']', '\x7d']) {as bs : List α}
    (h : ∀ a ∈ as, ∀ b ∈ bs, ∀ rest rest', Follows rest → Follows rest' →
      (shown a).toList ++ rest = (shown b).toList ++ rest' → mean a = mean b ∧ rest = rest')
    (hhead : ∀ a, a ∈ as ∨ a ∈ bs → ∀ rest, Follows rest →
      ((shown a).toList ++ rest).head? ≠ some close)
    {rest rest' : List Char}
    (heq : (commaSeparated (as.map shown)).toList ++ close :: rest =
      (commaSeparated (bs.map shown)).toList ++ close :: rest') :
    as.map mean = bs.map mean ∧ rest = rest' := by
  have hcomma : close ≠ ',' := by
    rintro rfl
    simp at hclose
  induction as generalizing bs with
  | nil =>
      cases bs with
      | nil => exact ⟨rfl, (List.cons.inj heq).2⟩
      | cons b bs =>
          have hne := hhead b (.inr List.mem_cons_self) _
            (follows_behindFirst shown hclose rest' bs)
          rw [← commaSeparated_cons, ← heq] at hne
          exact absurd rfl hne
  | cons a as ih =>
      cases bs with
      | nil =>
          have hne := hhead a (.inl List.mem_cons_self) _
            (follows_behindFirst shown hclose rest as)
          rw [← commaSeparated_cons, heq] at hne
          exact absurd rfl hne
      | cons b bs =>
          rw [commaSeparated_cons, commaSeparated_cons] at heq
          obtain ⟨hfirst, hmore⟩ := h a List.mem_cons_self b List.mem_cons_self _ _
            (follows_behindFirst shown hclose rest as) (follows_behindFirst shown hclose rest' bs) heq
          -- both go on with a comma, or both with the bracket
          cases as with
          | nil =>
              cases bs with
              | nil => exact ⟨by simp [hfirst], (List.cons.inj hmore).2⟩
              | cons c bs => exact absurd (List.cons.inj hmore).1 hcomma
          | cons c as =>
              cases bs with
              | nil => exact absurd (List.cons.inj hmore).1.symm hcomma
              | cons d bs =>
                  obtain ⟨hmeans, hend⟩ := ih
                    (fun x hx y hy => h x (List.mem_cons_of_mem _ hx) y (List.mem_cons_of_mem _ hy))
                    (fun x hx => hhead x (hx.imp (List.mem_cons_of_mem _) (List.mem_cons_of_mem _)))
                    (List.cons.inj (List.cons.inj hmore).2).2
                  exact ⟨by rw [List.map_cons, hfirst, hmeans, ← List.map_cons], hend⟩

end separated

/-- No expression begins with a closing bracket. -/
theorem head_display {e : Expr} (h : e.Readable) {close : Char} (hclose : close ∈ [')', ']', '\x7d'])
    {rest : List Char} (hrest : Closes rest) : (e.display.toList ++ rest).head? ≠ some close := by
  have hnone : ∀ cs, Form.ofChars (close :: cs) = .none := by
    intro cs
    simp only [List.mem_cons, List.not_mem_nil, or_false] at hclose
    rcases hclose with rfl | rfl | rfl <;> rfl
  have hnode : ∀ {g : Expr} {rest : List Char}, g.Readable → g.isOpen = false → Closes rest →
      (g.display.toList ++ rest).head? ≠ some close := by
    intro g rest hg hopen hrest heq
    obtain ⟨cs, hcs⟩ := List.head?_eq_some_iff.mp heq
    refine form_ne_none g ?_
    rw [← ofChars_display hg.node hopen hrest, hcs, hnone]
  rw [← display_core e]
  obtain ⟨hcore, hopen | ⟨l, op, r, hcompare⟩⟩ := h.core
  · exact hnode hcore hopen hrest
  · rw [hcompare] at hcore ⊢
    rw [display_compare]
    exact hnode hcore.compare.1.1 hcore.compare.1.2 (closes_spaced _ _)

/-- Arguments. -/
theorem args_agree {args args' : List Expr} (h : ∀ e ∈ args, e.Readable ∧ e.Told)
    (h' : ∀ e ∈ args', e.Readable) {rest rest' : List Char}
    (heq : (commaSeparated (displayAll args)).toList ++ ')' :: rest =
      (commaSeparated (displayAll args')).toList ++ ')' :: rest') :
    regroupedAll args = regroupedAll args' ∧ rest = rest' := by
  rw [displayAll_eq, displayAll_eq] at heq
  rw [regroupedAll_eq, regroupedAll_eq]
  refine eq_of_commaSeparated_eq (by simp) (fun e he f hf => (h e he).2 f (h' f hf)) ?_ heq
  rintro e (he | he) rest hrest
  · exact head_display (h e he).1 (by simp) hrest.closes
  · exact head_display (h' e he) (by simp) hrest.closes

/-- Entries. -/
theorem entries_agree {es fs : List (String × Expr)}
    (hes : ∀ entry ∈ es, '\'' ∉ entry.1.toList ∧ entry.2.Told)
    (hfs : ∀ entry ∈ fs, '\'' ∉ entry.1.toList ∧ entry.2.Readable) {rest rest' : List Char}
    (heq : (commaSeparated (displayEntries es)).toList ++ '\x7d' :: rest =
      (commaSeparated (displayEntries fs)).toList ++ '\x7d' :: rest') :
    regroupedEntries es = regroupedEntries fs ∧ rest = rest' := by
  have hchars : ∀ (entry : String × Expr) (rest : List Char),
      (quoted entry.1 ++ ": " ++ entry.2.display).toList ++ rest =
        (quoted entry.1).toList ++ (':' :: ' ' :: (entry.2.display.toList ++ rest)) := by simp
  rw [displayEntries_eq, displayEntries_eq] at heq
  rw [regroupedEntries_eq, regroupedEntries_eq]
  refine eq_of_commaSeparated_eq (by simp) (fun e he f hf rest rest' hrest hrest' heq => ?_) ?_ heq
  · rw [hchars, hchars] at heq
    obtain ⟨hname, hmore⟩ := quoted_eq_of_append_eq (hes e he).1 (hfs f hf).1 heq
    obtain ⟨hvalue, hend⟩ := (hes e he).2 f.2 (hfs f hf).2 _ _ hrest hrest'
      (List.cons.inj (List.cons.inj hmore).2).2
    exact ⟨by rw [hname, hvalue], hend⟩
  · intro entry _ rest _ heq
    rw [hchars, quoted, String.toList_append, String.toList_append] at heq
    cases heq

/-- A path is shown step by step. -/
theorem displayAll_cons (step : Step) (path : List Step) :
    Step.displayAll (step :: path) = Step.displayAll [step] ++ Step.displayAll path := by
  cases step <;> simp [Step.displayAll]

/-- A path is regrouped step by step. -/
theorem regroupedAll_cons (step : Step) (path : List Step) :
    Step.regroupedAll (step :: path) = Step.regroupedAll [step] ++ Step.regroupedAll path := by
  cases step <;> rfl

/-- A field is shown as a point and its name. -/
theorem displayAll_field (name : String) (rest : List Char) :
    (Step.displayAll [.field name]).toList ++ rest = '.' :: (name.toList ++ rest) := by
  simp [Step.displayAll]

/-- An index is shown in brackets. -/
theorem displayAll_index (e : Expr) (rest : List Char) :
    (Step.displayAll [.index e]).toList ++ rest = '[' :: (e.display.toList ++ ']' :: rest) := by
  simp [Step.displayAll]

/-- Nothing that may stand behind a value is a step. -/
theorem ne_displayAll_cons {rest : List Char} (hrest : Closes rest) (step : Step) (more : List Char) :
    rest ≠ (Step.displayAll [step]).toList ++ more := by
  rintro rfl
  cases step with
  | field name => simpa [displayAll_field] using hrest '.'
  | index e => simpa [displayAll_index] using hrest '['

/-- Single steps. -/
theorem step_agree {step step' : Step} (hname : ∀ name, step = .field name → IsName name)
    (hindex : ∀ e, step = .index e → e.Told) (hname' : ∀ name, step' = .field name → IsName name)
    (hindex' : ∀ e, step' = .index e → e.Readable) {rest rest' : List Char}
    (hrest : ∀ c ∈ rest.head?, continuesName c = false)
    (hrest' : ∀ c ∈ rest'.head?, continuesName c = false)
    (heq : (Step.displayAll [step]).toList ++ rest = (Step.displayAll [step']).toList ++ rest') :
    Step.regroupedAll [step] = Step.regroupedAll [step'] ∧ rest = rest' := by
  cases step with
  | field name =>
      cases step' with
      | field name' =>
          rw [displayAll_field, displayAll_field] at heq
          obtain ⟨rfl, hend⟩ := (hname name rfl).eq_of_append_eq (hname' name' rfl) hrest hrest'
            (List.cons.inj heq).2
          exact ⟨rfl, hend⟩
      | index e =>
          rw [displayAll_field, displayAll_index] at heq
          exact absurd (List.cons.inj heq).1 (by decide)
  | index e =>
      cases step' with
      | field name =>
          rw [displayAll_field, displayAll_index] at heq
          exact absurd (List.cons.inj heq).1 (by decide)
      | index e' =>
          rw [displayAll_index, displayAll_index] at heq
          obtain ⟨hkey, hend⟩ := hindex e rfl e' (hindex' e' rfl) _ _ (.cons (by simp) _)
            (.cons (by simp) _) (List.cons.inj heq).2
          exact ⟨congrArg (fun key => [Step.index key]) hkey, (List.cons.inj hend).2⟩

/-- Paths. -/
theorem path_agree {path path' : List Step}
    (hnames : ∀ name, .field name ∈ path → IsName name) (hes : ∀ e, .index e ∈ path → e.Told)
    (hnames' : ∀ name, .field name ∈ path' → IsName name)
    (hes' : ∀ e, .index e ∈ path' → e.Readable) {rest rest' : List Char} (hrest : Closes rest)
    (hrest' : Closes rest')
    (heq : (Step.displayAll path).toList ++ rest = (Step.displayAll path').toList ++ rest') :
    Step.regroupedAll path = Step.regroupedAll path' ∧ rest = rest' := by
  induction path generalizing path' with
  | nil =>
      cases path' with
      | nil => exact ⟨rfl, heq⟩
      | cons step path' =>
          rw [displayAll_cons step path', String.toList_append, List.append_assoc] at heq
          exact absurd heq (ne_displayAll_cons hrest step _)
  | cons step path ih =>
      rw [displayAll_cons step path, String.toList_append, List.append_assoc] at heq
      cases path' with
      | nil => exact absurd heq.symm (ne_displayAll_cons hrest' step _)
      | cons step' path' =>
          rw [displayAll_cons step' path', String.toList_append, List.append_assoc] at heq
          obtain ⟨hstep, hbehind⟩ := step_agree
            (fun name h => hnames name (h ▸ List.mem_cons_self))
            (fun e h => hes e (h ▸ List.mem_cons_self))
            (fun name h => hnames' name (h ▸ List.mem_cons_self))
            (fun e h => hes' e (h ▸ List.mem_cons_self))
            (Step.head_displayAll path hrest) (Step.head_displayAll path' hrest') heq
          obtain ⟨hpath, hend⟩ := ih (fun name h => hnames name (List.mem_cons_of_mem _ h))
            (fun e h => hes e (List.mem_cons_of_mem _ h))
            (fun name h => hnames' name (List.mem_cons_of_mem _ h))
            (fun e h => hes' e (List.mem_cons_of_mem _ h)) hbehind
          exact ⟨by rw [regroupedAll_cons step path, hstep, hpath, ← regroupedAll_cons], hend⟩

/-- Two operands in parentheses, with an operator between them that compares nothing. -/
theorem pair_agree {l r l' r' : Expr} {o o' : String} (hl : l.Told) (hr : r.Told) (hl' : l'.Readable)
    (hr' : r'.Readable) (ho : JoinsPair o) (ho' : JoinsPair o') {rest rest' : List Char}
    (heq : ("(" ++ l.display ++ " " ++ o ++ " " ++ r.display ++ ")").toList ++ rest =
      ("(" ++ l'.display ++ " " ++ o' ++ " " ++ r'.display ++ ")").toList ++ rest') :
    l.regrouped = l'.regrouped ∧ o = o' ∧ r.regrouped = r'.regrouped ∧ rest = rest' := by
  have hchars : ∀ (l r : Expr) (o : String) (rest : List Char),
      ("(" ++ l.display ++ " " ++ o ++ " " ++ r.display ++ ")").toList ++ rest =
        '(' :: (l.display.toList ++ (spaced o ++ (r.display.toList ++ ')' :: rest))) := by
    simp [spaced]
  rw [hchars, hchars] at heq
  obtain ⟨hleft, hbehind⟩ := hl l' hl' _ _ (.spaced ho _) (.spaced ho' _)
    (List.cons.inj heq).2
  obtain ⟨hop, hmore⟩ := spaced_eq_of_append_eq ho.blank_not_mem ho'.blank_not_mem hbehind
  obtain ⟨hright, hend⟩ := hr r' hr' _ _ (.cons (by simp) _) (.cons (by simp) _) hmore
  exact ⟨hleft, hop, hright, (List.cons.inj hend).2⟩

/-! ## All nodes -/

section places

variable {root : String} {path : List Step}

/-- What the text of a place is put together from. -/
theorem display_ofPath : (Reference.ofPath root path).toExpr.display =
    root ++ Step.displayAll path := by
  cases path with
  | nil => simp [Reference.toExpr, display, Step.displayAll]
  | cons step path => rfl

/-- A place is regrouped in its steps. -/
theorem regrouped_ofPath : (Reference.ofPath root path).toExpr.regrouped =
    (Reference.ofPath root (Step.regroupedAll path)).toExpr := by
  rcases path with _ | ⟨_ | _, _⟩ <;> rfl

/-- A readable node that has the form of a place is a name with the steps behind it. -/
theorem Readable.exists_path {e : Expr} (h : e.Readable) (hopen : e.isOpen = false)
    (hform : e.form = .place) : ∃ root path, e = (Reference.ofPath root path).toExpr := by
  cases e with
  | ident name => exact ⟨name, [], rfl⟩
  | property base path =>
      obtain ⟨step, path, rfl⟩ := List.exists_cons_of_length_pos h.node.shape
      exact ⟨base, step :: path, rfl⟩
  | lit l => cases l <;> cases hform
  | group => cases hform.symm.trans (form_group hopen)
  | _ => first | cases hform | cases hopen

/-- The names in a readable place are names. -/
theorem Readable.names_ofPath (h : (Reference.ofPath root path).toExpr.Readable) :
    IsName root ∧ ∀ name, .field name ∈ path → IsName name := by
  have hnames := h.node.names
  rw [ownNames_ofPath] at hnames
  obtain ⟨hroot, hfields⟩ := List.forall_mem_cons.mp hnames
  exact ⟨hroot, fun name hname => hfields name (List.mem_filterMap.mpr ⟨_, hname, rfl⟩)⟩

/-- Places. -/
theorem alone_ofPath (h : (Reference.ofPath root path).toExpr.Readable)
    (hpath : ∀ e, .index e ∈ path → e.Told) : (Reference.ofPath root path).toExpr.Alone := by
  intro f hf hopen rest rest' hrest hrest' heq
  have hplace : ∀ path, (Reference.ofPath root path).toExpr.isOpen = false ∧
      (Reference.ofPath root path).toExpr.form = .place := by
    intro path
    cases path <;> exact ⟨rfl, rfl⟩
  have hform := form_eq h hf (hplace path).1 hopen hrest hrest' heq
  obtain ⟨root', path', rfl⟩ := hf.exists_path hopen (hform.symm.trans (hplace path).2)
  obtain ⟨hname, hfields⟩ := h.names_ofPath
  obtain ⟨hname', hfields'⟩ := hf.names_ofPath
  have hindices := (everywhere_toExpr.mp hf).2
  rw [Reference.steps_ofPath] at hindices
  rw [display_ofPath, display_ofPath, String.toList_append, String.toList_append,
    List.append_assoc, List.append_assoc] at heq
  obtain ⟨hroot, hbehind⟩ := hname.eq_of_append_eq hname' (Step.head_displayAll path hrest)
    (Step.head_displayAll path' hrest') heq
  obtain ⟨hsteps, hend⟩ := path_agree hfields hpath hfields' hindices hrest hrest' hbehind
  exact ⟨by rw [regrouped_ofPath, regrouped_ofPath, hroot, hsteps], hend⟩

/-- Places inside the value of a variable. -/
theorem alone_property (h : (property root path).Readable)
    (hpath : ∀ e, .index e ∈ path → e.Told) : (property root path).Alone := by
  obtain ⟨step, path, rfl⟩ := List.exists_cons_of_length_pos h.node.shape
  exact @alone_ofPath root (step :: path) h hpath

end places

/-- Calls. -/
theorem alone_call {g : String} {args : List Expr} (h : (call g args).Readable)
    (hargs : ∀ e ∈ args, e.Told) : (call g args).Alone := by
  intro f hf hopen rest rest' hrest hrest' heq
  have hform := form_eq h hf rfl hopen hrest hrest' heq
  cases f with
  | call g' args' =>
      simp only [display, String.toList_append, List.append_assoc] at heq
      obtain ⟨hname, hbehind⟩ := (h.node.names g List.mem_cons_self).eq_of_append_eq
        (hf.node.names g' List.mem_cons_self) lparen_not_continuesName lparen_not_continuesName heq
      obtain ⟨hsame, hend⟩ := args_agree (fun e he => ⟨(everywhere_call.mp h).2 e he, hargs e he⟩)
        (everywhere_call.mp hf).2 (List.append_cancel_left hbehind)
      exact ⟨by rw [regrouped, regrouped, hname, hsame], hend⟩
  | group => cases hform.trans (form_group hopen)
  | lit l => cases l <;> cases hform
  | _ => first | cases hform | cases hopen

/-- Concatenations. -/
theorem alone_concat {parts : List Expr} (h : (concat parts).Readable)
    (hparts : ∀ e ∈ parts, e.Told) : (concat parts).Alone := by
  intro f hf hopen rest rest' hrest hrest' heq
  have hform := form_eq h hf rfl hopen hrest hrest' heq
  cases f with
  | concat parts' =>
      simp only [display, String.toList_append, List.append_assoc] at heq
      obtain ⟨hsame, hend⟩ := args_agree
        (fun e he => ⟨(everywhere_concat.mp h).2 e he, hparts e he⟩)
        (everywhere_concat.mp hf).2 (List.append_cancel_left heq)
      exact ⟨by rw [regrouped, regrouped, hsame], hend⟩
  | group => cases hform.trans (form_group hopen)
  | lit l => cases l <;> cases hform
  | _ => first | cases hform | cases hopen

/-- Objects. -/
theorem alone_object {es : List (String × Expr)} (h : (object es).Readable)
    (hes : ∀ entry ∈ es, entry.2.Told) : (object es).Alone := by
  intro f hf hopen rest rest' hrest hrest' heq
  have hform := form_eq h hf rfl hopen hrest hrest' heq
  cases f with
  | object fs =>
      simp only [display, String.toList_append, List.append_assoc] at heq
      obtain ⟨hsame, hend⟩ := entries_agree
        (fun entry hentry => ⟨h.node.texts _ (List.mem_map_of_mem hentry), hes entry hentry⟩)
        (fun entry hentry => ⟨hf.node.texts _ (List.mem_map_of_mem hentry),
          (everywhere_object.mp hf).2 entry hentry⟩) (List.append_cancel_left heq)
      exact ⟨by rw [regrouped, regrouped, hsame], hend⟩
  | group => cases hform.trans (form_group hopen)
  | lit l => cases l <;> cases hform
  | _ => first | cases hform | cases hopen

/-- Arithmetic steps. -/
theorem alone_arith {l r : Expr} {op : ArithOp} (h : (arith l op r).Readable) (hl : l.Told)
    (hr : r.Told) : (arith l op r).Alone := by
  intro f hf hopen rest rest' hrest hrest' heq
  have hform := form_eq h hf rfl hopen hrest hrest' heq
  cases f with
  | arith l' op' r' =>
      obtain ⟨-, hl', hr'⟩ := everywhere_arith.mp hf
      obtain ⟨hleft, hop, hright, hend⟩ :=
        pair_agree hl hr hl' hr' (joinsPair_symbol op) (joinsPair_symbol op') heq
      have hsame : op = op' := by
        cases op <;> cases op' <;> first | rfl | exact absurd hop (by decide)
      exact ⟨by rw [regrouped, regrouped, hleft, hsame, hright], hend⟩
  | group l' op' r' b =>
      obtain ⟨op', r', rfl, rfl⟩ := isPair_of_not_open hopen
      obtain ⟨-, hl', hr'⟩ := everywhere_group.mp hf
      obtain ⟨-, hop, -⟩ :=
        pair_agree hl hr hl' hr' (joinsPair_symbol op) (joinsPair_keyword op') heq
      cases op <;> cases op' <;> exact absurd hop (by decide)
  | lit l => cases l <;> cases hform
  | _ => first | cases hform | cases hopen

/-- Groups of two operands. -/
theorem alone_group {l r : Expr} {op : Combinator} {b : Bool}
    (h : (group l (some op) (some r) b).Readable) (hl : l.Told) (hr : r.Told) :
    (group l (some op) (some r) b).Alone := by
  intro f hf hopen rest rest' hrest hrest' heq
  have hform := form_eq h hf rfl hopen hrest hrest' heq
  cases f with
  | arith l' op' r' =>
      obtain ⟨-, hl', hr'⟩ := everywhere_arith.mp hf
      obtain ⟨-, hop, -⟩ :=
        pair_agree hl hr hl' hr' (joinsPair_keyword op) (joinsPair_symbol op') heq
      cases op <;> cases op' <;> exact absurd hop (by decide)
  | group l' op' r' b' =>
      obtain ⟨op', r', rfl, rfl⟩ := isPair_of_not_open hopen
      obtain ⟨-, hl', hr'⟩ := everywhere_group.mp hf
      obtain ⟨hleft, hop, hright, hend⟩ :=
        pair_agree hl hr hl' hr' (joinsPair_keyword op) (joinsPair_keyword op') heq
      have hsame : op = op' := by
        cases op <;> cases op' <;> first | rfl | exact absurd hop (by decide)
      exact ⟨by rw [regrouped, regrouped, hleft, hsame, hright], hend⟩
  | lit l => cases l <;> cases hform
  | _ => first | cases hform | cases hopen

mutual

/-- Readable expressions can be told apart, and those that are not open even in front of a
comparison. -/
theorem told : ∀ e : Expr, e.Readable → (e.isOpen = false → e.Alone) ∧ e.Told
  | .lit _, h => (alone_lit h).and_told
  | .ident name, h => (@alone_ofPath name [] h nofun).and_told
  | .property base path, h =>
      have hpath := toldPath path (everywhere_property.mp h).2
      (alone_property h hpath).and_told
  | .call _ args, h => (alone_call h (toldAll args (everywhere_call.mp h).2)).and_told
  | .object es, h => (alone_object h (toldEntries es (everywhere_object.mp h).2)).and_told
  | .arith l _ r, h =>
      have hl := (told l (everywhere_arith.mp h).2.1).2
      have hr := (told r (everywhere_arith.mp h).2.2).2
      (alone_arith h hl hr).and_told
  | .concat parts, h => (alone_concat h (toldAll parts (everywhere_concat.mp h).2)).and_told
  | .compare l _ r, h =>
      have hl := (told l h.compare.1.1).1 h.compare.1.2
      have hr := (told r h.compare.2.1).1 h.compare.2.2
      ⟨nofun, hl.compare hr⟩
  | .group e op none b, h => by
      have he := (told e (everywhere_single.mp h).2).2
      refine ⟨?_, fun f hf => ?_⟩
      · intro hopen
        obtain ⟨_, _, _, ⟨⟩⟩ := isPair_of_not_open hopen
      · unfold Agree
        rw [display_single, regrouped_single]
        exact he f hf
  | .group _ none (some _) _, h => absurd h.node.shape.right_iff (by simp)
  | .group l (some _) (some r) _, h =>
      have hl := (told l (everywhere_group.mp h).2.1).2
      have hr := (told r (everywhere_group.mp h).2.2).2
      (alone_group h hl hr).and_told

/-- The same for several expressions. -/
theorem toldAll : ∀ es : List Expr, (∀ e ∈ es, e.Readable) → ∀ e ∈ es, e.Told
  | [], _ => nofun
  | e :: es, h => by
      obtain ⟨he, hes⟩ := List.forall_mem_cons.mp h
      exact List.forall_mem_cons.mpr ⟨(told e he).2, toldAll es hes⟩

/-- The same for the entries of an object. -/
theorem toldEntries : ∀ es : List (String × Expr), (∀ entry ∈ es, entry.2.Readable) →
    ∀ entry ∈ es, entry.2.Told
  | [], _ => nofun
  | (_, e) :: es, h => by
      obtain ⟨he, hes⟩ := List.forall_mem_cons.mp h
      exact List.forall_mem_cons.mpr ⟨(told e he).2, toldEntries es hes⟩

/-- The same for a path. -/
theorem toldPath : ∀ path : List Step, (∀ e, .index e ∈ path → e.Readable) →
    ∀ e, .index e ∈ path → e.Told
  | [], _ => nofun
  | .field _ :: path, h => by
      have hpath := toldPath path fun e he => h e (List.mem_cons_of_mem _ he)
      exact fun e he => hpath e ((List.mem_cons.mp he).resolve_left nofun)
  | .index x :: path, h => by
      have hx := (told x (h x List.mem_cons_self)).2
      have hpath := toldPath path fun e he => h e (List.mem_cons_of_mem _ he)
      intro e he
      rcases List.mem_cons.mp he with heq | he
      · cases heq
        exact hx
      · exact hpath e he

end

end Expr

namespace Program

/-- The expressions in a program that is read have the shapes that expressions have, and their names
are names. -/
theorem shape_and_names {source : String} {p : Edict.Program} (h : ofSource source = .ok p)
    {s : Stmt} (hs : s ∈ Stmt.nestedAll p) {x : Expr} (hx : x ∈ s.terms) :
    x.NodeShape ∧ ∀ name ∈ x.ownNames, IsName name := by
  obtain ⟨e, he, hx⟩ := List.mem_flatMap.mp hx
  obtain ⟨ts, hboolean, hnames⟩ := exists_boolean h s hs e he
  exact ⟨hboolean.shaped x hx, hboolean.named hnames x hx⟩

/-- Two expressions that occur in programs and are displayed alike are the same tree, but for
parentheses around one operand, which are not shown, and for whether two operands were in
parentheses, which they always are when they are shown.  There must be no single quotes in their
texts and names of entries and no infinite numbers, and they must not call a function that has the
name under which concatenations are shown. -/
theorem regrouped_of_display_eq {source source' : String} {p p' : Edict.Program} {s s' : Stmt}
    {e e' : Expr} (hp : ofSource source = .ok p) (hp' : ofSource source' = .ok p')
    (hs : s ∈ Stmt.nestedAll p) (hs' : s' ∈ Stmt.nestedAll p') (he : e ∈ s.terms)
    (he' : e' ∈ s'.terms)
    (hplain : ∀ x ∈ e.subterms, x.NodePlain) (hplain' : ∀ x ∈ e'.subterms, x.NodePlain)
    (h : e.display = e'.display) : e.regrouped = e'.regrouped := by
  have hreadable : e.Readable := fun x hx =>
    have ⟨hshape, hnames⟩ := shape_and_names hp hs (Stmt.terms_subset he hx)
    ⟨hshape, hnames, hplain x hx⟩
  have hreadable' : e'.Readable := fun x hx =>
    have ⟨hshape, hnames⟩ := shape_and_names hp' hs' (Stmt.terms_subset he' hx)
    ⟨hshape, hnames, hplain' x hx⟩
  exact ((Expr.told e hreadable).2 e' hreadable' [] [] .nil .nil (by rw [h])).1

/-- `(a == 1) and b` and `(a == 1 and b)` are both displayed as `(a == 1 and b)`. -/
theorem regrouped_of_display_eq_and :
    let comparison : Expr := .compare (.ident "a") .eq (.lit (.number 1))
    let e : Expr := .joined (.paren comparison) .and (.ident "b")
    let e' : Expr := .group comparison (some .and) (some (.ident "b")) true
    ofSource "$x = (a == 1) and b" = .ok [.assign (.ident "$x") .set e] ∧
      ofSource "$y = (a == 1 and b)" = .ok [.assign (.ident "$y") .set e'] ∧
      e.display = e'.display ∧ e.regrouped = e'.regrouped := by
  intro comparison e e'
  have hp : ofSource "$x = (a == 1) and b" = .ok [.assign (.ident "$x") .set e] := by
    refine ofSource_eq_ok.mpr ⟨[⟨.ident "$x", ⟨0, 2⟩⟩, ⟨.symbol .eq, ⟨3, 4⟩⟩,
      ⟨.symbol .lparen, ⟨5, 6⟩⟩, ⟨.ident "a", ⟨6, 7⟩⟩, ⟨.symbol .eqEq, ⟨8, 10⟩⟩,
      ⟨.number (.ofWritten false 1), ⟨11, 12⟩⟩, ⟨.symbol .rparen, ⟨12, 13⟩⟩,
      ⟨.combinator .and, ⟨14, 17⟩⟩, ⟨.ident "b", ⟨18, 19⟩⟩, ⟨.eof, ⟨19, 19⟩⟩],
      by decide +kernel, by with_unfolding_all rfl⟩
  have hp' : ofSource "$y = (a == 1 and b)" = .ok [.assign (.ident "$y") .set e'] := by
    refine ofSource_eq_ok.mpr ⟨[⟨.ident "$y", ⟨0, 2⟩⟩, ⟨.symbol .eq, ⟨3, 4⟩⟩,
      ⟨.symbol .lparen, ⟨5, 6⟩⟩, ⟨.ident "a", ⟨6, 7⟩⟩, ⟨.symbol .eqEq, ⟨8, 10⟩⟩,
      ⟨.number (.ofWritten false 1), ⟨11, 12⟩⟩, ⟨.combinator .and, ⟨13, 16⟩⟩,
      ⟨.ident "b", ⟨17, 18⟩⟩, ⟨.symbol .rparen, ⟨18, 19⟩⟩, ⟨.eof, ⟨19, 19⟩⟩],
      by decide +kernel, by with_unfolding_all rfl⟩
  have hterm : ∀ (name : String) (x : Expr),
      x ∈ (Stmt.assign (.ident name) .set x).terms := by
    intro name x
    exact List.mem_flatMap.mpr ⟨x, by simp [Stmt.operands], x.mem_subterms_self⟩
  have hdisplay : e.display = e'.display := by decide +kernel
  refine ⟨hp, hp', hdisplay, ?_⟩
  exact regrouped_of_display_eq hp hp' List.mem_cons_self List.mem_cons_self (hterm "$x" e)
    (hterm "$y" e') (by decide +kernel) (by decide +kernel) hdisplay

end Program

end Edict

import Edict.Proofs.Grammar.ExpressionComplete
import Edict.Proofs.Grammar.Shape
import Mathlib.Data.List.TakeWhile

/-!
# Printing expressions

Every expression of the right shape is derived by the tokens that it is printed as (`Expr.printed`).
It is printed without parentheses other than its own: the grammar of expressions fixes the tree, so
an arithmetic step is one more link of the chain on its left, and a group puts the terms of its
right side behind those of its left side.  Arguments and entries are printed with a comma behind
each.

## Main definitions

* `Expr.print`: the tokens that an expression is printed as.
* `Derives.Terms`: terms joined by combinators of at least some level, from which a group is made.
* `Expr.Printed`: what a printed expression is derived as, at each level that it belongs to.

## Main statements

* `Expr.printed`: every expression of the right shape is printed so.
* `Expr.readExpression_print`, `Expr.readCondition_print`: and is read back, in front of any rest
  that does not go on with it.
-/

namespace Edict

open Grammar Derives

/-! ## Tokens of words and signs -/

/-- The token of a word that stands in no text. -/
abbrev TokenKind.token (k : TokenKind) : Token := ⟨k, Span.nowhere⟩

/-- The token of a sign that stands in no text. -/
abbrev Symbol.token (s : Symbol) : Token := (TokenKind.symbol s).token

/-- The sign of an arithmetic operator. -/
def ArithOp.sign : ArithOp → Symbol
  | .add => .plus
  | .sub => .minus
  | .mul => .star
  | .div => .slash

/-- The word of a comparison. -/
def CompareOp.word : CompareOp → TokenKind
  | .eq => .symbol .eqEq
  | .notEq => .symbol .notEq
  | .lt => .symbol .lt
  | .ltEq => .symbol .ltEq
  | .gt => .symbol .gt
  | .gtEq => .symbol .gtEq
  | .isIn => .keyword .inKw

/-- The word that a literal is. -/
def Literal.word : Literal → TokenKind
  | .text s => .text s
  | .number x => .number (.ofWritten false x)
  | .bool b => .bool b

/-- An operator is read off its sign. -/
theorem ArithOp.arithOp?_sign (op : ArithOp) : (TokenKind.symbol op.sign).arithOp? = some op := by
  cases op <;> rfl

/-- A comparison is read off its word. -/
theorem CompareOp.compareOp?_word (op : CompareOp) : op.word.compareOp? = some op := by
  cases op <;> rfl

/-! ## The printer -/

mutual

/-- The tokens of an expression. -/
def Expr.print : Expr → List Token
  | .lit l => [l.word.token]
  | .ident name => [(TokenKind.ident name).token]
  | .property base path => (TokenKind.ident base).token :: Step.printAll path
  | .call f args =>
      (TokenKind.ident f).token :: Symbol.lparen.token :: (Expr.printAll args ++ [Symbol.rparen.token])
  | .object entries => Symbol.lbrace.token :: (Expr.printEntries entries ++ [Symbol.rbrace.token])
  | .arith l op r => l.print ++ op.sign.token :: r.print
  | .concat parts => (Expr.printSum parts).tail
  | .compare l op r => l.print ++ op.word.token :: r.print
  | .group l (some op) (some r) true =>
      Symbol.lparen.token ::
        (l.print ++ (TokenKind.combinator op).token :: r.print ++ [Symbol.rparen.token])
  | .group l (some op) (some r) false => l.print ++ (TokenKind.combinator op).token :: r.print
  | .group e _ _ _ => Symbol.lparen.token :: (e.print ++ [Symbol.rparen.token])

/-- The tokens of arguments, with a comma behind each. -/
def Expr.printAll : List Expr → List Token
  | [] => []
  | e :: es => e.print ++ Symbol.comma.token :: Expr.printAll es

/-- The tokens of the entries of an object, with a comma behind each. -/
def Expr.printEntries : List (String × Expr) → List Token
  | [] => []
  | (name, e) :: es =>
      (TokenKind.text name).token :: Symbol.colon.token ::
        (e.print ++ Symbol.comma.token :: Expr.printEntries es)

/-- The tokens of the parts of a concatenation, with a `+` in front of each. -/
def Expr.printSum : List Expr → List Token
  | [] => []
  | e :: es => Symbol.plus.token :: (e.print ++ Expr.printSum es)

/-- The tokens of a path. -/
def Step.printAll : List Step → List Token
  | [] => []
  | .field name :: path =>
      Symbol.dot.token :: (TokenKind.ident name).token :: Step.printAll path
  | .index e :: path =>
      Symbol.lbracket.token :: (e.print ++ Symbol.rbracket.token :: Step.printAll path)

end

/-! ## Chains and terms -/

namespace Expr

/-- An element behind a list belongs to none of its front, if that ends within the list or the
element does not belong there. -/
theorem takeWhile_dropWhile_concat {α : Type} {p : α → Bool} {as : List α} {b : α}
    (h : (∀ a ∈ as, p a = true) → p b = false) :
    (as ++ [b]).takeWhile p = as.takeWhile p ∧ (as ++ [b]).dropWhile p = as.dropWhile p ++ [b] := by
  induction as with
  | nil => simp [h nofun]
  | cons a as ih =>
      by_cases ha : p a = true
      · have := ih fun has => h (List.forall_mem_cons.mpr ⟨ha, has⟩)
        simp [ha, this]
      · simp [ha]

/-- A link behind an arithmetic chain makes one more step, unless it adds to a text or a
concatenation, of which it would become a part. -/
theorem ofLinks_concat {first r : Expr} {op : ArithOp} {links : List (ArithOp × Expr)}
    (h : op = .add → (ofLinks first links).isText = false ∧ (ofLinks first links).isConcat = false) :
    ofLinks first (links ++ [(op, r)]) = .arith (ofLinks first links) op r := by
  have hfold : ∀ e ls, foldLinks e (ls ++ [(op, r)]) = .arith (foldLinks e ls) op r := by
    intro e ls
    exact List.foldl_append
  by_cases htext : first.isText = true
  · have hend : (∀ l ∈ links, adds l = true) → adds (op, r) = false := by
      intro hall
      refine Bool.eq_false_iff.mpr fun hadds => ?_
      obtain ⟨hnotText, hnotConcat⟩ := h (by simpa [adds] using hadds)
      unfold ofLinks at hnotText hnotConcat
      rw [List.takeWhile_eq_self_iff.mpr hall, List.dropWhile_eq_nil_iff.mpr hall]
        at hnotText hnotConcat
      by_cases hlinks : links = []
      · simp [hlinks, foldLinks, htext] at hnotText
      · simp [hlinks, foldLinks, htext, isConcat] at hnotConcat
    obtain ⟨htake, hdrop⟩ := takeWhile_dropWhile_concat hend
    unfold ofLinks
    rw [htake, hdrop, hfold, hfold]
    split <;> rfl
  · rw [ofLinks_eq_foldLinks (fun h => absurd h htext), ofLinks_eq_foldLinks (fun h => absurd h htext),
      hfold]

/-- Only `and` binds more tightly than a combinator. -/
theorem eq_and_of_precedence {op op' : Combinator} (h : op.precedence < op'.precedence) :
    op' = .and := by
  cases op <;> cases op' <;> first | rfl | exact absurd h (by decide)

/-- `or` and `not` end what is joined before them. -/
theorem joinFrom_append_of_ne_and {before : Option (Expr × Combinator)} {run e : Expr}
    {op : Combinator} (h : op ≠ .and) (ls rs : List (Combinator × Expr)) :
    joinFrom before run (ls ++ (op, e) :: rs) =
      joinFrom (some (joinFrom before run ls, op)) e rs := by
  induction ls generalizing before run with
  | nil => exact joinFrom_cons_of_ne_and before run e h rs
  | cons l ls ih =>
      obtain ⟨op', e'⟩ := l
      cases op' <;> exact ih

/-- Two runs of terms with a combinator between them are a group, if the terms on the left are
joined as tightly as it joins, and those on the right more tightly. -/
theorem joinFrom_concat {left first : Expr} {op : Combinator} {ls rs : List (Combinator × Expr)}
    (hls : ∀ l ∈ ls, op.precedence ≤ l.1.precedence)
    (hrs : ∀ l ∈ rs, op.precedence < l.1.precedence) :
    joinFrom none left (ls ++ (op, first) :: rs) =
      .joined (joinFrom none left ls) op (joinFrom none first rs) := by
  have hands : ∀ l ∈ rs, l.1 = .and := fun l hl => eq_and_of_precedence (hrs l hl)
  by_cases hop : op = .and
  · subst hop
    have hleft : ∀ l ∈ ls, l.1 = .and := fun l hl =>
      eq_and_of_precedence (show Combinator.or.precedence < l.1.precedence from hls l hl)
    rcases rs with _ | ⟨l, rs⟩
    · exact joinFrom_append_of_and none left hleft _
    · have := hrs l List.mem_cons_self
      rw [hands l List.mem_cons_self] at this
      exact absurd this (Nat.lt_irrefl _)
  · rw [joinFrom_append_of_ne_and hop, ← List.append_nil rs, joinFrom_append_of_and _ _ hands,
      joinFrom_append_of_and _ _ hands]
    rfl

end Expr

/-! ## What is printed is derived -/

namespace Derives

/-- An arithmetic chain and one more link derive an arithmetic step. -/
theorem Arith.concat {ts us : List Token} {l r : Expr} {op : ArithOp} (hl : Arith ts l)
    (hr : Link us (op, r)) (h : op = .add → l.isText = false ∧ l.isConcat = false) :
    Arith (ts ++ us) (.arith l op r) := by
  cases hl with
  | mk hfirst hlinks =>
      rw [← Expr.ofLinks_concat h, List.append_assoc]
      refine .mk hfirst (hlinks.append ?_)
      simpa using Star.cons hr .nil

/-- The tokens derive the expression as a term and what goes on with it, joined as tightly as
`level`. -/
def Terms (level : Nat) (ts : List Token) (e : Expr) : Prop :=
  ∃ first us vs, Term us first ∧ Continues level first vs e ∧ ts = us ++ vs

/-- A term is one that nothing goes on with. -/
theorem Term.terms {level : Nat} {ts : List Token} {e : Expr} (h : Term ts e) : Terms level ts e :=
  ⟨e, ts, [], h, .nil level e, (List.append_nil ts).symm⟩

/-- What is joined tightly is joined less tightly. -/
theorem Terms.mono {m n : Nat} {ts : List Token} {e : Expr} (h : Terms n ts e) (hmn : m ≤ n) :
    Terms m ts e := by
  obtain ⟨first, us, vs, hfirst, ⟨links, hvs, hlinks, he⟩, hts⟩ := h
  refine ⟨first, us, vs, hfirst, ⟨links, hvs, ?_, he⟩, hts⟩
  exact fun l hl => Nat.le_trans hmn (hlinks l hl)

/-- Terms joined by combinators are an expression. -/
theorem Terms.boolean {level : Nat} {ts : List Token} {e : Expr} (h : Terms level ts e) :
    Boolean ts e := by
  obtain ⟨first, us, vs, hfirst, ⟨links, hvs, -, rfl⟩, rfl⟩ := h
  exact .mk hfirst hvs

/-- Terms, a combinator and terms that are joined more tightly derive a group. -/
theorem Terms.group {ts us : List Token} {l r : Expr} {op : Combinator} {s : Span}
    (hl : Terms op.precedence ts l) (hr : Terms (op.precedence + 1) us r) :
    Terms op.precedence (ts ++ ⟨.combinator op, s⟩ :: us) (.joined l op r) := by
  obtain ⟨first, us, vs, hfirst, ⟨ls, hvs, hls, rfl⟩, rfl⟩ := hl
  obtain ⟨second, us', vs', hsecond, ⟨rs, hvs', hrs, rfl⟩, rfl⟩ := hr
  refine ⟨first, us, vs ++ ⟨.combinator op, s⟩ :: (us' ++ vs'), hfirst, ?_, by simp⟩
  refine ⟨ls ++ (op, second) :: rs, ?_, ?_, (Expr.joinFrom_concat hls hrs).symm⟩
  · have hlink : Joined (⟨.combinator op, s⟩ :: us') (op, second) := .mk hsecond
    exact hvs.append (.cons hlink hvs')
  · intro link hlink
    rcases List.mem_append.mp hlink with hlink | hlink
    · exact hls link hlink
    · rcases List.mem_cons.mp hlink with rfl | hlink
      · exact Nat.le_refl _
      · exact Nat.le_of_succ_le (hrs link hlink)

end Derives

/-- The tokens of an expression derive it, at the level of the grammar at which it stands. -/
structure Expr.Printed (e : Expr) : Prop where
  primary : e.isPrimary = true → Primary e.print e
  arith : e.isArith = true → Arith e.print e
  terms : Terms e.precedence e.print e

namespace Expr.Printed

variable {e : Expr}

/-- The tokens of an expression derive it. -/
theorem boolean (h : e.Printed) : Boolean e.print e := h.terms.boolean

/-- A term that is no arithmetic. -/
theorem of_term (h : Term e.print e) (harith : e.isArith = false) : e.Printed where
  primary hprimary := by
    rw [isArith_of_isPrimary hprimary] at harith
    cases harith
  arith h := by
    rw [harith] at h
    cases h
  terms := h.terms

/-- Arithmetic that is no primary. -/
theorem of_arith (h : Arith e.print e) (hprimary : e.isPrimary = false) : e.Printed where
  primary h := by
    rw [hprimary] at h
    cases h
  arith _ := h
  terms := (Term.value h).terms

/-- A primary. -/
theorem of_primary (h : Primary e.print e) : e.Printed :=
  ⟨fun _ => h, fun _ => h.arith, (Term.value h.arith).terms⟩

end Expr.Printed

/-- The word of a literal derives it. -/
theorem Literal.word_derives (l : Literal) : Primary [l.word.token] (.lit l) := by
  cases l with
  | text s => exact .text
  | number x =>
      have h : Primary _ _ := .number (s := Span.nowhere) (n := .ofWritten false x)
      rwa [Numeral.value_ofWritten] at h
  | bool b => exact .bool

/-- An expression in parentheses is derived as one operand. -/
theorem Derives.Terms.parens {level : Nat} {ts : List Token} {e : Expr} (h : Terms level ts e) :
    Term (Symbol.lparen.token :: (ts ++ [Symbol.rparen.token])) e.parenthesize :=
  .parens h.boolean

/-- An operand in parentheses is one that was none before. -/
theorem Expr.parenthesize_of_isGroup {e : Expr} (h : e.isGroup = false) :
    e.parenthesize = .paren e := by
  cases e <;> first | rfl | cases h

/-- The parts of a concatenation are primaries. -/
theorem Expr.NodeShape.isPrimary {parts : List Expr} (h : (Expr.concat parts).NodeShape) :
    ∀ e ∈ parts, e.isPrimary = true := by
  obtain ⟨-, htext, hprimary⟩ := h
  rcases parts with _ | ⟨first, parts⟩
  · nofun
  · refine List.forall_mem_cons.mpr ⟨?_, hprimary⟩
    have hfirst : first.isText = true := htext first rfl
    cases first <;> first | rfl | cases hfirst

/-- A sum derives a concatenation, without the sign in front of it. -/
theorem Expr.NodeShape.derives {parts : List Expr} (h : (Expr.concat parts).NodeShape)
    {ts : List Token} (hsum : Star Link ts (parts.map ((ArithOp.add, ·)))) :
    Arith ts.tail (.concat parts) := by
  obtain ⟨hlen, htext, -⟩ := h
  rcases parts with _ | ⟨first, parts⟩
  · cases hlen
  · have hne : parts ≠ [] := by
      rintro rfl
      exact Nat.not_succ_le_self 1 hlen
    cases hsum with
    | cons hfirst hrest =>
        cases hfirst with
        | op _ hfirst =>
            have hconcat : Expr.ofLinks first (parts.map ((.add, ·)) ++ []) =
                .concat (first :: parts) := Expr.ofLinks_append (htext first rfl) hne nofun
            rw [List.append_nil] at hconcat
            exact hconcat ▸ Arith.mk hfirst hrest

mutual

/-- An expression that has a shape is derived by its tokens. -/
theorem Expr.printed : ∀ e : Expr, e.Shaped → e.Printed
  | .lit l, _ => .of_primary l.word_derives
  | .ident _, _ => .of_primary (.place .ident)
  | .property base path, h => by
      obtain ⟨hlen, hpath⟩ := Expr.shaped_property.mp h
      have hne : path ≠ [] := List.ne_nil_of_length_pos hlen
      exact .of_primary (.place (.property (Step.printAll_derives path hpath) hne))
  | .call f args, h =>
      .of_primary (.call (.mk (Expr.printAll_derives args (Expr.shaped_call.mp h))))
  | .object entries, h =>
      .of_primary (.object (Expr.printEntries_derives entries (Expr.shaped_object.mp h)))
  | .arith l op r, h => by
      obtain ⟨⟨hprimary, harith, hadd⟩, hl, hr⟩ := Expr.shaped_arith.mp h
      have hlink : Link (op.sign.token :: r.print) (op, r) :=
        .op op.arithOp?_sign ((Expr.printed r hr).primary hprimary)
      exact .of_arith (((Expr.printed l hl).arith harith).concat hlink hadd) rfl
  | .concat parts, h => by
      obtain ⟨hshape, hparts⟩ := Expr.shaped_concat.mp h
      have hsum := Expr.printSum_derives parts fun e he => ⟨hshape.isPrimary e he, hparts e he⟩
      exact .of_arith (hshape.derives hsum) rfl
  | .compare l op r, h => by
      obtain ⟨⟨hlarith, hrarith⟩, hl, hr⟩ := Expr.shaped_compare.mp h
      have hcompare : Term (l.print ++ op.word.token :: r.print) (.compare l op r) :=
        .compare ((Expr.printed l hl).arith hlarith) op.compareOp?_word
          ((Expr.printed r hr).arith hrarith)
      exact .of_term hcompare rfl
  | .group e op none b, h => by
      obtain ⟨⟨rfl, rfl, hgroup⟩, he⟩ := Expr.shaped_single.mp h
      have hparens := (Expr.printed e he).terms.parens
      rw [Expr.parenthesize_of_isGroup hgroup] at hparens
      exact .of_term hparens rfl
  | .group l none (some r) b, h => absurd h Expr.not_shaped_group
  | .group l (some op) (some r) false, h => by
      obtain ⟨⟨hleft, hright⟩, hl, hr⟩ := Expr.shaped_group.mp h
      have hl := (Expr.printed l hl).terms.mono hleft
      have hgroup := hl.group (s := Span.nowhere) ((Expr.printed r hr).terms.mono hright)
      exact ⟨nofun, nofun, hgroup⟩
  | .group l (some op) (some r) true, h => by
      obtain ⟨⟨hleft, hright⟩, hl, hr⟩ := Expr.shaped_group.mp h
      have hl := (Expr.printed l hl).terms.mono hleft
      have hgroup := hl.group (s := Span.nowhere) ((Expr.printed r hr).terms.mono hright)
      exact .of_term hgroup.parens rfl

/-- Arguments that have a shape are derived by their tokens. -/
theorem Expr.printAll_derives : ∀ es : List Expr, (∀ e ∈ es, e.Shaped) →
    Delimited true Boolean (Expr.printAll es) es
  | [], _ => .empty .nil
  | e :: es, h => by
      obtain ⟨he, hes⟩ := List.forall_mem_cons.mp h
      exact (Expr.printAll_derives es hes).cons (Expr.printed e he).boolean .nil .nil

/-- Entries with values that have a shape are derived by their tokens. -/
theorem Expr.printEntries_derives : ∀ es : List (String × Expr), (∀ entry ∈ es, entry.2.Shaped) →
    Delimited true Entry (Expr.printEntries es) es
  | [], _ => .empty .nil
  | (name, e) :: es, h => by
      obtain ⟨he, hes⟩ := List.forall_mem_cons.mp h
      have hentry : Entry ((TokenKind.text name).token :: Symbol.colon.token :: e.print) (name, e) :=
        .mk (Expr.printed e he).boolean
      exact (Expr.printEntries_derives es hes).cons hentry .nil .nil

/-- Primaries that have a shape are derived by their tokens as the links of a sum. -/
theorem Expr.printSum_derives : ∀ es : List Expr,
    (∀ e ∈ es, e.isPrimary = true ∧ e.Shaped) →
      Star Link (Expr.printSum es) (es.map ((ArithOp.add, ·)))
  | [], _ => .nil
  | e :: es, h => by
      obtain ⟨⟨hprimary, he⟩, hes⟩ := List.forall_mem_cons.mp h
      have hlink : Link (Symbol.plus.token :: e.print) (.add, e) :=
        .op rfl ((Expr.printed e he).primary hprimary)
      exact .cons hlink (Expr.printSum_derives es hes)

/-- A path with indices that have a shape is derived by its tokens. -/
theorem Step.printAll_derives : ∀ path : List Step, (∀ e, .index e ∈ path → e.Shaped) →
    Star PathStep (Step.printAll path) path
  | [], _ => .nil
  | .field name :: path, h =>
      .cons .field (Step.printAll_derives path fun e he => h e (List.mem_cons_of_mem _ he))
  | .index e :: path, h => by
      have hstep : PathStep
          (Symbol.lbracket.token :: (e.print ++ [Symbol.rbracket.token])) (.index e) :=
        .index (Expr.printed e (h e List.mem_cons_self)).boolean
      have hpath := Step.printAll_derives path fun e he => h e (List.mem_cons_of_mem _ he)
      simpa [Step.printAll] using Star.cons hstep hpath

end

/-! ## What is printed is read -/

namespace Expr

/-- An expression that has a shape is read from its tokens. -/
theorem readExpression_print {e : Expr} (h : e.Shaped) {rest : List Token} (hrest : EndsAt 1 rest) :
    Gives (readExpression (e.print ++ rest)) e rest :=
  readExpression_complete (Expr.printed e h).boolean hrest

/-- A condition that has a shape is read from its tokens. -/
theorem readCondition_print {e : Expr} (h : e.Shaped) {rest : List Token} (hrest : EndsAt 1 rest) :
    Gives (readCondition (e.print ++ rest)) e rest :=
  readCondition_complete (Expr.printed e h).boolean hrest

end Expr

/-- The first token of a place is the name at which it begins. -/
theorem Reference.exists_print (place : Reference) :
    ∃ us, place.toExpr.print = (TokenKind.ident place.root).token :: us := by
  cases place <;> exact ⟨_, rfl⟩

/-- A place that has a shape is derived by its tokens. -/
theorem Reference.print_derives {place : Reference} (h : place.toExpr.Shaped) :
    Place place.toExpr.print place := by
  cases place with
  | ident name => exact .ident
  | property base path =>
      obtain ⟨hlen, hpath⟩ := Expr.shaped_property.mp h
      exact .property (Step.printAll_derives path hpath) (List.ne_nil_of_length_pos hlen)

end Edict

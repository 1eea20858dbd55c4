import Edict.Cursor
import Edict.Proofs.Grammar.ExpressionParallel
import Edict.Proofs.Grammar.Shape

/-!
# What a condition is read as

Conditions are read by climbing from level to level.  What comes out is said here without levels:
the terms are cut at each `or` and `not`, each piece is folded from the left with `and`, and so are
the pieces with the combinators between them (`Expr.ofPieces`).  A reader of conditions returns this
tree of all terms that stand there, and takes them all (`readCondition_ofPieces`).

Expressions are read in another way: as arithmetic first, and from the beginning once more if that
turns out to be too little.  It comes to the same (`readExpression_eq_readCondition`).

## Main definitions

* `Expr.Piece`, `Expr.cut`, `Expr.ofPieces`: the reference tree of a chain of terms.
* `Expr.unjoined`: the chain of terms that a tree is made of.
* `Grammar.TermAt`, `Grammar.Chained`: a term, and a chain of terms, at the front of a list.

## Main statements

* `Grammar.readCondition_ofPieces`: for every list of tokens, a condition is read as the reference
  tree of the chain at its front, and nothing else is read as a condition.
* `readExpression_eq_readCondition`: at every cursor the two readers agree on value, rest and
  place of a mistake, and on its words unless the cursor is at a combinator.
-/

namespace Edict

open Grammar

/-! ## The tree of terms -/

namespace Expr

/-- Terms joined by `and`. -/
structure Piece where
  first : Expr
  others : List Expr

/-- The terms of a piece, folded from the left. -/
def Piece.tree (piece : Piece) : Expr :=
  piece.others.foldl (fun left e => .joined left .and e) piece.first

/-- Terms cut at each `or` and `not`: the first piece, and the others with the combinator in front
of each. -/
def cut (first : Expr) : List (Combinator × Expr) → Piece × List (Combinator × Piece)
  | [] => (⟨first, []⟩, [])
  | (.and, e) :: links => (⟨first, e :: (cut e links).1.others⟩, (cut e links).2)
  | (op, e) :: links => (⟨first, []⟩, (op, (cut e links).1) :: (cut e links).2)

/-- The tree of terms joined by combinators: the pieces, folded from the left. -/
def ofPieces (first : Expr) (links : List (Combinator × Expr)) : Expr :=
  (cut first links).2.foldl (fun left piece => .joined left piece.1 piece.2.tree)
    (cut first links).1.tree

/-- The first term of the first piece is the first one of all. -/
theorem cut_first (first : Expr) (links : List (Combinator × Expr)) :
    (cut first links).1.first = first := by
  rcases links with _ | ⟨⟨_ | _ | _, e⟩, links⟩ <;> rfl

/-- The tree of terms behind a run of `and` that has been folded already: the other terms of the
first piece go on with it, and the other pieces go on with what this gives. -/
theorem joinFrom_eq_cut (before : Option (Expr × Combinator)) (run first : Expr)
    (links : List (Combinator × Expr)) :
    joinFrom before run links =
      (cut first links).2.foldl (fun left piece => .joined left piece.1 piece.2.tree)
        (joinRun before
          ((cut first links).1.others.foldl (fun left e => .joined left .and e) run)) := by
  induction links generalizing before run first with
  | nil => rfl
  | cons l links ih =>
      obtain ⟨op, e⟩ := l
      by_cases hop : op = .and
      · subst hop
        exact ih before _ e
      · have hcut : cut first ((op, e) :: links) =
            (⟨first, []⟩, (op, (cut e links).1) :: (cut e links).2) := by
          cases op <;> first | rfl | exact absurd rfl hop
        rw [joinFrom_cons_of_ne_and _ _ _ hop, ih _ _ e, hcut, List.foldl_cons, Piece.tree, cut_first]
        rfl

/-- The grammar joins terms piece by piece. -/
theorem ofTerms_eq_ofPieces (first : Expr) (links : List (Combinator × Expr)) :
    ofTerms first links = ofPieces first links := by
  rw [ofTerms, joinFrom_eq_cut none first first, ofPieces, Piece.tree, cut_first]
  rfl

/-- `a or b and c not d` is `(a or (b and c)) not d`. -/
example (a b c d : Expr) : ofTerms a [(.or, b), (.and, c), (.not, d)] =
    .joined (.joined a .or (.joined b .and c)) .not d := rfl

/-! ### Taking the tree apart -/

/-- The terms of an expression from left to right, with the combinators between them.  Only groups
that do not stand in parentheses are taken apart. -/
def unjoined : Expr → Expr × List (Combinator × Expr)
  | .joined l op r => (l.unjoined.1, l.unjoined.2 ++ (op, r.unjoined.1) :: r.unjoined.2)
  | e => (e, [])

/-- A term is not taken apart. -/
theorem unjoined_of_isTerm {e : Expr} (h : e.isTerm = true) : e.unjoined = (e, []) := by
  unfold unjoined
  split
  · cases h
  · rfl

/-- The terms on both sides of a combinator. -/
theorem unjoined_joined (l r : Expr) (op : Combinator) :
    (joined l op r).unjoined =
      (l.unjoined.1, l.unjoined.2 ++ (op, r.unjoined.1) :: r.unjoined.2) := by
  rw [unjoined]

/-- A term that goes on with a run of `and`. -/
theorem unjoined_joinRun_and (before : Option (Expr × Combinator)) (run : Expr) {e : Expr}
    (he : e.isTerm = true) :
    (joinRun before (.joined run .and e)).unjoined =
      ((joinRun before run).unjoined.1, (joinRun before run).unjoined.2 ++ [(.and, e)]) := by
  rcases before with _ | ⟨left, op⟩ <;> simp [joinRun, unjoined_joined, unjoined_of_isTerm he]

/-- Joining loses no term, takes none twice and keeps their order. -/
theorem unjoined_joinFrom (before : Option (Expr × Combinator)) (run : Expr)
    {links : List (Combinator × Expr)} (hlinks : ∀ l ∈ links, l.2.isTerm = true) :
    (joinFrom before run links).unjoined =
      ((joinRun before run).unjoined.1, (joinRun before run).unjoined.2 ++ links) := by
  induction links generalizing before run with
  | nil => simp [joinFrom]
  | cons l links ih =>
      obtain ⟨op, e⟩ := l
      obtain ⟨he, hmore⟩ := List.forall_mem_cons.mp hlinks
      by_cases hop : op = .and
      · subst hop
        refine (ih before _ hmore).trans ?_
        simp [unjoined_joinRun_and _ _ he]
      · rw [joinFrom_cons_of_ne_and _ _ _ hop, ih _ _ hmore]
        simp [joinRun, unjoined_joined, unjoined_of_isTerm he]

/-- The tree of terms has the terms in it, each of them once and in their order. -/
theorem unjoined_ofPieces {first : Expr} {links : List (Combinator × Expr)}
    (hfirst : first.isTerm = true) (hlinks : ∀ l ∈ links, l.2.isTerm = true) :
    (ofPieces first links).unjoined = (first, links) := by
  rw [← ofTerms_eq_ofPieces, ofTerms, unjoined_joinFrom none first hlinks, joinRun,
    unjoined_of_isTerm hfirst, List.nil_append]

end Expr

namespace Grammar

/-! ## Terms -/

/-- A term stands at the front of the first list, and the second one behind it. -/
def TermAt (ts : List Token) (e : Expr) (rest : List Token) : Prop := Gives (readTerm ts) e rest

/-- At the front of `ts` stand terms joined by combinators: `first`, and behind each combinator
another one, up to `rest`, where no combinator stands. -/
def Chained (ts : List Token) (first : Expr) (links : List (Combinator × Expr))
    (rest : List Token) : Prop :=
  ∃ mid, TermAt ts first mid ∧ Linked TermAt mid links rest ∧ Unlinked rest

variable {ts rest : List Token} {e first : Expr} {links : List (Combinator × Expr)} {n : Nat}

/-- What a reader takes for a term does not depend on how many tokens it may read. -/
theorem readsTerm_iff : (nested n).ReadsTerm ts e rest ↔ ts.length ≤ n ∧ TermAt ts e rest := by
  have htracks (i j : Nat) (hi : ts.length ≤ i) (hj : ts.length ≤ j) :
      Seam.self.Tracks (term (nested i) ts hi) (term (nested j) ts hj) :=
    Seam.term_tracks (Seam.nested_tracks Seam.self i j) (.inl (Seam.parallel_self ts)) hi hj
  constructor
  · rintro ⟨h, hgives⟩
    exact ⟨h, Seam.gives_of_tracks_self (htracks _ _ h (Nat.le_refl _)) hgives⟩
  · rintro ⟨h, hgives⟩
    exact ⟨h, Seam.gives_of_tracks_self (htracks _ _ (Nat.le_refl _) h) hgives⟩

/-- Links are found by a reader that may read them. -/
theorem linked_readsTerm (h : Linked TermAt ts links rest) (hn : ts.length ≤ n) :
    Linked (nested n).ReadsTerm ts links rest := by
  induction h with
  | nil => exact .nil
  | @cons op s ts mid rest e links hterm _ ih =>
      have hts : ts.length ≤ n := Nat.le_of_succ_le hn
      have hmid : mid.length < ts.length := Gives.length_lt hterm
      exact .cons (readsTerm_iff.mpr ⟨hts, hterm⟩) (ih (Nat.le_trans (Nat.le_of_lt hmid) hts))

/-- What stands as a term is one. -/
theorem TermAt.isTerm (h : TermAt ts e rest) : e.isTerm = true := by
  obtain ⟨_, hterm⟩ := h
  obtain ⟨us, hus, -⟩ := term_sound (nested_sound _) ts _ _ hterm
  exact (Derives.levels_shaped.of_term (Derives.levels_shaped.below _) (Nat.le_refl _) hus).1

/-- All terms behind combinators are terms. -/
theorem isTerm_of_linked (h : Linked TermAt ts links rest) : ∀ l ∈ links, l.2.isTerm = true := by
  induction h with
  | nil => exact List.forall_mem_nil _
  | cons hterm _ ih => exact List.forall_mem_cons.mpr ⟨hterm.isTerm, ih⟩

/-- A term that begins with a parenthesis is a condition up to the closing one, as one operand. -/
theorem termAt_paren_iff {s : Span} :
    TermAt (⟨.symbol .lparen, s⟩ :: ts) e rest ↔
      ∃ body t, Gives (readCondition ts) body (⟨.symbol .rparen, t⟩ :: rest) ∧
        e = body.parenthesize := by
  unfold TermAt readTerm
  rw [term, nested]
  constructor
  · rintro ⟨hlt, hp⟩
    obtain ⟨body, hbody, hp⟩ := ok_of_bind hp
    obtain ⟨close, hclose, hp⟩ := ok_of_bind hp
    cases hp
    obtain ⟨_, ⟨t, rfl⟩, -, hrest⟩ := sign_sound _ _ close hclose
    refine ⟨body.value, t, ?_, rfl⟩
    rw [← List.singleton_append, ← hrest]
    exact gives_of_eq_ok hbody
  · rintro ⟨body, t, hbody, rfl⟩
    refine Gives.bind hbody fun _ => ?_
    exact (gives_sign .rparen t rest).bind fun _ => gives_of_eq_ok rfl

/-! ## Conditions -/

/-- Conditions are read as the tree of the terms that stand there. -/
theorem readCondition_gives_iff :
    Gives (readCondition ts) e rest ↔
      ∃ first links, Chained ts first links rest ∧ e = Expr.ofPieces first links := by
  refine condition_gives_iff.trans ⟨?_, ?_⟩
  · rintro ⟨first, mid, links, hfirst, hlinks, hrest, rfl⟩
    refine ⟨first, links, ⟨mid, (readsTerm_iff.mp hfirst).2, ?_, hrest⟩,
      Expr.ofTerms_eq_ofPieces first links⟩
    exact hlinks.mono fun _ _ _ h => (readsTerm_iff.mp h).2
  · rintro ⟨first, links, ⟨mid, hfirst, hlinks, hrest⟩, rfl⟩
    have hmid : mid.length < ts.length := Gives.length_lt hfirst
    exact ⟨first, mid, links, readsTerm_iff.mpr ⟨Nat.le_refl _, hfirst⟩,
      linked_readsTerm hlinks (Nat.le_of_lt hmid), hrest, (Expr.ofTerms_eq_ofPieces first links).symm⟩

/-- Terms joined by combinators, of any number, are read as a condition, which stops right behind
the last of them; and nothing else is.  The tree is that of the pieces between `or` and `not`, and
has the terms and combinators in it, each of them once and in their order.  What stands in
parentheses is one of the terms, whatever stands around it. -/
theorem readCondition_ofPieces (ts : List Token) :
    (∀ first links rest, Chained ts first links rest →
      Gives (readCondition ts) (Expr.ofPieces first links) rest ∧
        (Expr.ofPieces first links).unjoined = (first, links)) ∧
    (∀ e rest, Gives (readCondition ts) e rest →
      ∃ first links, Chained ts first links rest ∧ e = Expr.ofPieces first links) ∧
    ∀ s e rest, TermAt (⟨.symbol .lparen, s⟩ :: ts) e rest ↔
      ∃ body t, Gives (readCondition ts) body (⟨.symbol .rparen, t⟩ :: rest) ∧
        e = body.parenthesize := by
  refine ⟨fun first links rest h => ⟨?_, ?_⟩, fun _ _ => readCondition_gives_iff.mp, ?_⟩
  · exact readCondition_gives_iff.mpr ⟨first, links, h, rfl⟩
  · obtain ⟨_, hfirst, hlinks, -⟩ := h
    exact Expr.unjoined_ofPieces hfirst.isTerm (isTerm_of_linked hlinks)
  · exact fun _ _ _ => termAt_paren_iff

/-! ## Expressions -/

/-- No condition begins with a combinator. -/
theorem readCondition_combinator (op : Combinator) (s : Span) (us : List Token) :
    readCondition (⟨.combinator op, s⟩ :: us) =
      .error ⟨.missingOperand op .left, ⟨.combinator op, s⟩ :: us⟩ := by
  rw [readCondition, condition, term]
  rfl

/-- Where no combinator stands in front, reading an expression is reading a condition. -/
theorem readExpression_of_unlinked (h : Unlinked ts) : readExpression ts = readCondition ts :=
  expression_eq_condition _ ts _ (unlinked_iff.mp h)

end Grammar

/-- What stands at a cursor begins with its token. -/
theorem Cursor.peek_rest (c : Cursor) : Token.peek c.rest = c.current := by
  unfold Token.peek Cursor.rest Cursor.current Cursor.peek
  simp [List.head?_drop]

/-- Wherever a cursor stands in a list of tokens, an expression is read there if a condition is, as
the same tree and up to the same place.  If there is none, both report it at the same place; and
they report the same, unless a combinator stands at the cursor. -/
theorem readExpression_eq_readCondition (c : Cursor) :
    (∀ e rest, Gives (readExpression c.rest) e rest ↔ Gives (readCondition c.rest) e rest) ∧
    ∀ f g, readExpression c.rest = .error f → readCondition c.rest = .error g →
      f.rest = g.rest ∧ f.span = g.span ∧
        (c.current.kind.combinator? = none → f.message = g.message) := by
  rw [← c.peek_rest]
  rcases unlinked_or c.rest with h | ⟨op, s, us, hrest⟩
  · rw [readExpression_of_unlinked h]
    refine ⟨fun e rest => Iff.rfl, fun f g hf hg => ?_⟩
    obtain rfl := Except.error.inj (hf.symm.trans hg)
    exact ⟨rfl, rfl, fun _ => rfl⟩
  · -- both fail at the combinator, for different reasons
    rw [hrest, readCondition_combinator]
    have hexpression := expression_combinator (nested _) op s us (Nat.le_refl _)
    refine ⟨fun e rest => ⟨?_, nofun⟩, fun f g hf hg => ?_⟩
    · rintro ⟨_, h⟩
      exact absurd (hexpression.symm.trans h) nofun
    · obtain rfl := Except.error.inj (hexpression.symm.trans hf)
      obtain rfl := Except.error.inj hg
      exact ⟨rfl, rfl, nofun⟩

end Edict

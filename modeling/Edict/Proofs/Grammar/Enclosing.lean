import Edict.Proofs.Grammar.Condition

/-!
# Parentheses around a condition

A pair of parentheses makes one operand of what it encloses.  Each further pair encloses what is one
operand already, and leaves the tree as it is (`Expr.parenthesize_parenthesize`).  So any number of
pairs is read as one pair is, wherever they stand (`Grammar.reads_enclosed`).

## Main definitions

* `Grammar.Enclosed`: tokens in some number of pairs of parentheses, which may stand anywhere in a
  text.

## Main statements

* `Grammar.reads_enclosed`: a condition in `n + 1` pairs is read as the condition in one pair, by
  both readers of expressions and in front of any rest that no combinator begins.
-/

namespace Edict

open Grammar Derives

namespace Expr

/-- What is one operand stays the operand that it is. -/
theorem parenthesize_parenthesize (e : Expr) : e.parenthesize.parenthesize = e.parenthesize := by
  cases e <;> rfl

end Expr

namespace Grammar

/-- The second list is the first one in pairs of parentheses, as many as are said. -/
inductive Enclosed (us : List Token) : Nat → List Token → Prop
  | bare : Enclosed us 0 us
  | pair {n : Nat} {ts : List Token} (s t : Span) : Enclosed us n ts →
      Enclosed us (n + 1) (⟨.symbol .lparen, s⟩ :: (ts ++ [⟨.symbol .rparen, t⟩]))

variable {us ts rest : List Token} {e : Expr} {n : Nat}

/-- A condition that is read is one up to where its reader stops. -/
theorem boolean_of_gives (h : Gives (readCondition (us ++ rest)) e rest) : Boolean us e := by
  obtain ⟨hlt, hread⟩ := h
  obtain ⟨vs, hvs, -, hsplit⟩ := readCondition_sound _ _ hread
  obtain rfl := List.append_cancel_right hsplit
  exact hvs

/-- One operand is a condition. -/
theorem gives_of_termAt (h : TermAt ts e rest) (hrest : Unlinked rest) :
    Gives (readCondition ts) e rest :=
  readCondition_gives_iff.mpr ⟨e, [], ⟨rest, h, .nil, hrest⟩, rfl⟩

/-- Inside the outermost pair stands a condition, with the same tree but for being one operand. -/
theorem Enclosed.inside (hus : Boolean us e) (h : Enclosed us (n + 1) ts) :
    ∃ s t vs f, ts = ⟨.symbol .lparen, s⟩ :: (vs ++ [⟨.symbol .rparen, t⟩]) ∧ Boolean vs f ∧
      f.parenthesize = e.parenthesize := by
  induction n generalizing ts with
  | zero =>
      rcases h with _ | ⟨s, t, h⟩
      cases h
      exact ⟨s, t, us, e, rfl, hus, rfl⟩
  | succ n ih =>
      rcases h with _ | ⟨s, t, h⟩
      obtain ⟨s', t', vs, f, rfl, hvs, hf⟩ := ih h
      refine ⟨s, t, _, f.parenthesize, rfl, (Term.parens hvs).boolean, ?_⟩
      rw [hf, Expr.parenthesize_parenthesize]

/-- A condition in parentheses is read as one operand, whatever stands behind it. -/
theorem Enclosed.termAt (hus : Boolean us e) (h : Enclosed us (n + 1) ts) (rest : List Token) :
    TermAt (ts ++ rest) e.parenthesize rest := by
  obtain ⟨s, t, vs, f, rfl, hvs, hf⟩ := h.inside hus
  have hclose : EndsAt 1 (⟨.symbol .rparen, t⟩ :: rest) := Nat.zero_lt_one
  rw [List.cons_append, List.append_assoc, List.singleton_append]
  exact termAt_paren_iff.mpr ⟨f, t, readCondition_complete hvs hclose, hf.symm⟩

/-- What is read as a condition is read in any number of parentheses as in one pair: as one operand
wherever an operand may stand, and so as a condition and as an expression where no combinator goes
on with it. -/
theorem reads_enclosed (h : Gives (readCondition (us ++ rest)) e rest)
    (hts : Enclosed us (n + 1) ts) (rest' : List Token) :
    TermAt (ts ++ rest') e.parenthesize rest' ∧
      (Unlinked rest' → Gives (readCondition (ts ++ rest')) e.parenthesize rest' ∧
        Gives (readExpression (ts ++ rest')) e.parenthesize rest') := by
  have hus := boolean_of_gives h
  have hterm := hts.termAt hus rest'
  refine ⟨hterm, fun hrest' => ?_⟩
  have hcondition := gives_of_termAt hterm hrest'
  have hopen : Unlinked (ts ++ rest') := by
    obtain ⟨s, t, vs, f, rfl, -⟩ := hts.inside hus
    rfl
  rw [readExpression_of_unlinked hopen]
  exact ⟨hcondition, hcondition⟩

end Grammar

end Edict

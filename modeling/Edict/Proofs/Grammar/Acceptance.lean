import Edict.Proofs.Grammar.StatementComplete

/-!
# The language that is read

`readProgram` accepts exactly the token lists that the grammar derives, and the tree that it returns
is derived by all tokens in front of the first end of input, each of them used once.

## Main definitions

* `Token.beforeEof`: the tokens in front of the first end of input; nothing behind it is read.

## Main statements

* `readProgram_accepts`: both directions, for every list of tokens.  The grammar may derive other
  trees as well, since its rules for statements are ambiguous; which one is read is said elsewhere.
-/

namespace Edict

open Grammar

/-- The tokens in front of the first end of input. -/
def Token.beforeEof (ts : List Token) : List Token := ts.takeWhile (!·.kind.isEof)

/-- Tokens that are no end of input, in front of one, are those before the first. -/
theorem beforeEof_append {used rest : List Token} (hused : ∀ t ∈ used, t.kind ≠ .eof)
    (hrest : (Token.peek rest).kind = .eof) : Token.beforeEof (used ++ rest) = used := by
  have hused : ∀ t ∈ used, (!t.kind.isEof) = true := by
    intro t ht
    rcases hk : t.kind <;> first | rfl | exact absurd hk (hused t ht)
  have hrest : rest.takeWhile (!·.kind.isEof) = [] := by
    rcases rest with _ | ⟨t, rest⟩
    · rfl
    · rw [peek_cons] at hrest
      exact List.takeWhile_cons_of_neg (by rw [hrest]; decide)
  unfold Token.beforeEof
  rw [List.takeWhile_append_of_pos hused, hrest, List.append_nil]

/-- Every list is made of the tokens before the first end of input and of one that begins with it,
or of nothing. -/
theorem exists_beforeEof (ts : List Token) :
    ∃ rest, ts = Token.beforeEof ts ++ rest ∧ (Token.peek rest).kind = .eof := by
  refine ⟨ts.dropWhile (!·.kind.isEof), List.takeWhile_append_dropWhile.symm, ?_⟩
  have hhead := List.head?_dropWhile_not (fun t : Token => !t.kind.isEof) ts
  rcases hdrop : ts.dropWhile (!·.kind.isEof) with _ | ⟨t, rest⟩
  · rw [hdrop]
    rfl
  · rw [hdrop] at hhead ⊢
    have ht : t.kind.isEof = true := by simpa using hhead
    unfold TokenKind.isEof at ht
    split at ht
    · assumption
    · cases ht

/-- A list of tokens is read as a program if and only if the grammar derives the tokens before its
first end of input, and the tree that is returned is one that they derive. -/
theorem readProgram_accepts (ts : List Token) :
    ((∃ p, readProgram ts = .ok p) ↔ ∃ p, Derives.Program (Token.beforeEof ts) p) ∧
      ∀ p, readProgram ts = .ok p → Derives.Program (Token.beforeEof ts) p := by
  have hsound : ∀ p, readProgram ts = .ok p → Derives.Program (Token.beforeEof ts) p := by
    intro p hp
    obtain ⟨rest, ⟨used, hderives, hused, rfl⟩, hrest⟩ := readProgram_sound ts hp
    rwa [beforeEof_append hused hrest]
  refine ⟨⟨?_, ?_⟩, hsound⟩
  · rintro ⟨p, hp⟩
    exact ⟨p, hsound p hp⟩
  · rintro ⟨p, hp⟩
    obtain ⟨rest, hts, hrest⟩ := exists_beforeEof ts
    rw [hts]
    exact readProgram_complete hp hrest

end Edict

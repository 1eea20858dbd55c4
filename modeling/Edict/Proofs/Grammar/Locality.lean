import Edict.Proofs.Grammar.Joining
import Edict.Proofs.Grammar.StatementLookahead
import Edict.Proofs.Grammar.StatementPrefix

/-!
# Which tokens decide

What a list of tokens is read as is decided by its tokens up to the first end of input, and a
mistake by those up to the one behind the token at which it is reported (`readProgram_decided`).
The first is about lists that are parallel up to an end of input that they share (`Seam.sameEof`),
the second about lists that part further on (`Fork`).

## Main definitions

* `Grammar.report`: what a host is told, the program or the words and the span of a mistake.
* `Token.throughEof`: the tokens up to the first end of input, which is put there if there is none.
* `Seam.sameEof`: two lists that are the same up to there.

## Main statements

* `readProgram_decided`: for every list of tokens.  A mistake stands at one of the tokens up to the
  end of input, and is decided by the tokens up to the one behind it.
-/

namespace Edict

open Grammar

variable {ts us used used' rest rest' : List Token} {f : Failure}

/-- What reading returns: a program, or what is wrong, in words, and where. -/
def Grammar.report (r : Except Failure Program) : Except (String × Span) Program :=
  r.mapError fun f => (f.message, f.span)

/-- What mistakes are reported as is said by the problem and by the token. -/
theorem report_error {f g : Failure} (hproblem : g.problem = f.problem) (htoken : g.token = f.token) :
    report (.error g) = report (.error f) := by
  unfold report Failure.message Failure.span
  rw [Except.mapError, Except.mapError, hproblem, htoken]

/-- The tokens up to and including the first end of input; if there is none, one that stands nowhere
is put behind the last token. -/
def Token.throughEof (ts : List Token) : List Token :=
  Token.beforeEof ts ++ [Token.peek (ts.drop (Token.beforeEof ts).length)]

/-- What the tokens up to the first end of input are. -/
theorem throughEof_append (hused : ∀ t ∈ used, t.kind ≠ .eof) (hrest : (Token.peek rest).kind = .eof) :
    Token.throughEof (used ++ rest) = used ++ [Token.peek rest] := by
  unfold Token.throughEof
  rw [beforeEof_append hused hrest, List.drop_left]

/-- Every list has other tokens in front, and an end of input behind them. -/
theorem exists_throughEof (ts : List Token) :
    ∃ used rest, ts = used ++ rest ∧ (∀ t ∈ used, t.kind ≠ .eof) ∧ (Token.peek rest).kind = .eof := by
  obtain ⟨rest, hts, hrest⟩ := exists_beforeEof ts
  refine ⟨_, rest, hts, fun t ht heof => ?_, hrest⟩
  unfold Token.beforeEof at ht
  have hkind := List.all_eq_true.mp (List.all_takeWhile (l := ts)) t ht
  rw [heof] at hkind
  cases hkind

/-- Of two lists that end with their first end of input, none goes on behind the other one. -/
theorem eq_of_append_eof {e e' : Token} {more : List Token} (hused : ∀ t ∈ used, t.kind ≠ .eof)
    (he : e.kind = .eof) (hused' : ∀ t ∈ used', t.kind ≠ .eof) (he' : e'.kind = .eof)
    (h : used' ++ [e'] = used ++ e :: more) : used' ++ [e'] = used ++ [e] := by
  have hwhole : Token.throughEof (used' ++ [e']) = used' ++ [e'] := throughEof_append hused' he'
  have hpart : Token.throughEof (used ++ e :: more) = used ++ [e] := throughEof_append hused he
  rw [← hwhole, h, hpart]

/-- If two lists begin with the same tokens, so many of them that there is an end of input among
them, then they are the same up to it. -/
theorem eq_of_take_eof {e e' : Token} {n : Nat} (hused : ∀ t ∈ used, t.kind ≠ .eof)
    (he : e.kind = .eof) (hused' : ∀ t ∈ used', t.kind ≠ .eof) (he' : e'.kind = .eof)
    (h : (used' ++ [e']).take n = (used ++ [e]).take n) (hn : used.length < n) :
    used' ++ [e'] = used ++ [e] := by
  rw [List.take_of_length_le (l := used ++ [e]) (by simp; omega)] at h
  have hsplit : used' ++ [e'] = used ++ e :: (used' ++ [e']).drop n := by
    rw [List.append_cons used, ← h, List.take_append_drop]
  exact eq_of_append_eof hused he hused' he' hsplit

/-- The token at which a mistake is reported is one of those up to the first end of input. -/
theorem Failure.token_throughEof (h : Reaches ts f.rest) :
    (Token.throughEof ts)[f.index ts]? = some f.token := by
  obtain ⟨used, hused, hts⟩ := h
  obtain ⟨used', rest, hrest, hused', heof⟩ := exists_throughEof f.rest
  have hall : ∀ t ∈ used ++ used', t.kind ≠ .eof := fun t ht =>
    (List.mem_append.mp ht).elim (hused t) (hused' t)
  rw [Failure.index_eq hts, hts, hrest, ← List.append_assoc, throughEof_append hall heof,
    List.append_assoc, List.getElem?_append_right (Nat.le_refl _), Nat.sub_self]
  unfold Failure.token
  rw [hrest]
  cases used' <;> rfl

/-! ## The same first end of input -/

namespace Seam

/-- The same tokens up to the same end of input. -/
def sameEof : Seam where
  lax := False
  same t u := u = t
  final ts us := (Token.peek ts).kind = .eof ∧ Token.peek us = Token.peek ts
  kind_eq := Token.kind_eq_of_eq
  stops := by
    rintro ts us ⟨hts, hus⟩
    rw [hus, hts]
    exact ⟨rfl, rfl⟩
  skip := by
    rintro ts us ⟨hts, hpeek⟩
    have hus : (Token.peek us).kind = .eof := by rw [hpeek, hts]
    rw [skipNewlines_of_eof hts, skipNewlines_of_eof hus]
    exact .inl ⟨hts, hpeek⟩

/-- Lists that are the same up to their first end of input are parallel. -/
theorem parallel_sameEof (h : Token.throughEof us = Token.throughEof ts) : sameEof.Parallel ts us := by
  obtain ⟨used, rest, rfl, hused, hrest⟩ := exists_throughEof ts
  obtain ⟨used', rest', rfl, hused', hrest'⟩ := exists_throughEof us
  rw [throughEof_append hused hrest, throughEof_append hused' hrest'] at h
  obtain ⟨rfl, hpeek⟩ := List.append_inj' h rfl
  have hfinal : sameEof.Parallel rest rest' := .final ⟨hrest, (List.cons_eq_cons.mp hpeek).1⟩
  have hinit : ∀ t ∈ used', t.kind ≠ .eof ∧ sameEof.same t (id t) := fun t ht => ⟨hused t ht, rfl⟩
  simpa using hfinal.append hinit

/-- The first tokens of parallel lists are the same. -/
theorem Parallel.peek_sameEof (h : sameEof.Parallel ts us) : Token.peek us = Token.peek ts := by
  cases h with
  | final h => exact h.2
  | cons _ hsame _ => exact hsame

end Seam

/-- At the end of input there is no program left. -/
theorem readProgram_nil_of_eof (h : (Token.peek ts).kind = .eof) : readProgram ts = .ok [] := by
  apply readProgram_of_eof
  rw [skipSeparators_of_eof h, h]

/-- Lists that are the same up to their first end of input are read as the same. -/
theorem report_of_throughEof (h : Token.throughEof us = Token.throughEof ts) :
    report (readProgram us) = report (readProgram ts) := by
  have hlast : ∀ vs ws, Seam.sameEof.final vs ws → readProgram vs = .ok [] ∧ readProgram ws = .ok [] :=
    fun vs ws hfinal =>
      ⟨readProgram_nil_of_eof hfinal.1, readProgram_nil_of_eof (hfinal.2 ▸ hfinal.1)⟩
  have hjoins := Seam.readProgram_joins hlast (Seam.parallel_sameEof h)
  generalize readProgram ts = r at hjoins ⊢
  generalize readProgram us = r' at hjoins ⊢
  cases hjoins with
  | @ok p _ hr =>
      rw [hr]
      exact congrArg _ (congrArg _ (List.append_nil p))
  | @error f g hproblem hrest => exact report_error hproblem.symm hrest.peek_sameEof
  | lost hlax => exact hlax.elim

/-! ## The same first tokens -/

/-- A mistake is made in every list that goes on in another way behind the token that follows the
one at which it is reported. -/
theorem report_of_take (hf : readProgram ts = .error f) (hlong : f.index ts + 2 ≤ ts.length)
    (h : us.take (f.index ts + 2) = ts.take (f.index ts + 2)) :
    report (readProgram us) = report (.error f) := by
  obtain ⟨n, hn⟩ : ∃ n, n = f.index ts + 2 := ⟨_, rfl⟩
  have hcommon : Fork.Common ⟨ts.drop n, us.drop n⟩ ts us :=
    ⟨ts.take n, (List.take_append_drop n ts).symm, by rw [hn, ← h, List.take_append_drop]⟩
  obtain ⟨used, -, hts⟩ := readProgram_reaches ts hf
  have hindex : f.index ts + f.rest.length = ts.length := by
    rw [Failure.index_eq hts, hts, List.length_append]
  have hends : ¬ Fork.Ends ⟨ts.drop n, us.drop n⟩ f.rest := by
    unfold Fork.Ends
    rw [List.length_drop]
    omega
  obtain ⟨g, hg, hproblem, hrest⟩ := (Fork.readProgram_shares hcommon hf).resolve_left hends
  obtain ⟨t, u, _, _, hts, hus, -⟩ := hrest.of_not_ends hends
  rw [hg]
  refine report_error hproblem.symm ?_
  unfold Failure.token
  rw [hts, hus, peek_cons, peek_cons]

/-- The tokens up to the first end of input decide what a list is read as.  A mistake is decided by
the tokens up to the one behind the token at which it is reported, or up to the first end of input
if this comes before. -/
theorem readProgram_decided (ts : List Token) :
    (∀ us, Token.throughEof us = Token.throughEof ts →
      report (readProgram us) = report (readProgram ts)) ∧
    ((∀ t ∈ ts, t.kind ≠ .eof) →
      report (readProgram (ts ++ [⟨.eof, ⟨0, 0⟩⟩])) = report (readProgram ts)) ∧
    ∀ f, readProgram ts = .error f →
      (Token.throughEof ts)[f.index ts]? = some f.token ∧
      ∀ us, (Token.throughEof us).take (f.index ts + 2) = (Token.throughEof ts).take (f.index ts + 2) →
        report (readProgram us) = .error (f.message, f.span) := by
  refine ⟨fun us => report_of_throughEof, fun hts => report_of_throughEof ?_, fun f hf =>
    ⟨Failure.token_throughEof (readProgram_reaches ts hf), fun us h => ?_⟩⟩
  · have hend : Token.throughEof (ts ++ []) = ts ++ [Token.eof] := throughEof_append hts rfl
    rw [List.append_nil] at hend
    rw [hend]
    exact throughEof_append hts rfl
  · obtain ⟨used, rest, hts, hused, hrest⟩ := exists_throughEof ts
    obtain ⟨used', rest', hus, hused', hrest'⟩ := exists_throughEof us
    have hthrough : Token.throughEof ts = used ++ [Token.peek rest] :=
      hts ▸ throughEof_append hused hrest
    have hthrough' : Token.throughEof us = used' ++ [Token.peek rest'] :=
      hus ▸ throughEof_append hused' hrest'
    have heof (hsame : Token.throughEof us = Token.throughEof ts) :
        report (readProgram us) = .error (f.message, f.span) := by
      rw [report_of_throughEof hsame, hf]
      rfl
    rw [hthrough, hthrough'] at h heof
    rcases Nat.lt_or_ge used.length (f.index ts + 2) with hshort | hlong
    · exact heof (eq_of_take_eof hused hrest hused' hrest' h hshort)
    · rcases Nat.lt_or_ge used'.length (f.index ts + 2) with hshort | hlong'
      · exact heof (eq_of_take_eof hused' hrest' hused hrest h.symm hshort).symm
      · rw [List.take_append_of_le_length hlong, List.take_append_of_le_length hlong'] at h
        refine report_of_take hf ?_ ?_
        · rw [congrArg List.length hts, List.length_append]
          exact Nat.le_trans hlong (Nat.le_add_right _ _)
        · rw [congrArg (List.take _) hts, congrArg (List.take _) hus,
            List.take_append_of_le_length hlong, List.take_append_of_le_length hlong', h]

/-- An `and` without a right operand in the third place: nothing behind the fourth one matters. -/
theorem readProgram_decided_operand :
    let opened : List Token :=
      [⟨.keyword .ifKw, ⟨0, 2⟩⟩, ⟨.ident "a", ⟨3, 4⟩⟩, ⟨.combinator .and, ⟨5, 8⟩⟩,
        ⟨.keyword .thenKw, ⟨9, 13⟩⟩]
    readProgram (opened ++ [⟨.ident "b", ⟨14, 15⟩⟩]) =
        .error ⟨.missingOperand .and .right, [⟨.combinator .and, ⟨5, 8⟩⟩, ⟨.keyword .thenKw, ⟨9, 13⟩⟩,
          ⟨.ident "b", ⟨14, 15⟩⟩]⟩ ∧
      report (readProgram (opened ++ [⟨.symbol .comma, ⟨20, 21⟩⟩, ⟨.text "c", ⟨21, 24⟩⟩])) =
        .error ("`and` is missing its right operand", ⟨5, 8⟩) := by
  intro opened
  have hmistake : readProgram (opened ++ [⟨.ident "b", ⟨14, 15⟩⟩]) =
      .error ⟨.missingOperand .and .right, [⟨.combinator .and, ⟨5, 8⟩⟩, ⟨.keyword .thenKw, ⟨9, 13⟩⟩,
        ⟨.ident "b", ⟨14, 15⟩⟩]⟩ := by with_unfolding_all rfl
  refine ⟨hmistake, ?_⟩
  rw [((readProgram_decided _).2.2 _ hmistake).2 _ (by with_unfolding_all rfl)]
  rfl

end Edict

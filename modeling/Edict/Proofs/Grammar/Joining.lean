import Edict.Compile
import Edict.Proofs.Grammar.StatementParallel
import Edict.Proofs.Token.Joining

/-!
# Programs joined by a line feed

Two texts with a line feed between them are the program of the first one followed by that of the
second one (`Program.ofSource_join`).  The tokens of the joined text are those of the first text up
to a line break, and those of the second text at later places.  So there are two seams: where the
first program ends, and the second one goes on behind a line break (`Seam.lineFeed`); and the end of
the second text, up to which all tokens have moved (`Seam.moved`).

The first seam does not hide an `else`: a program that ends with an `if` would take it, which is why
the second text may not begin with one.

## Main definitions

* `Seam.lineFeed`, `Seam.moved`: where the joined list goes on behind the first program, and a list
  with all tokens at later places.
* `Seam.Joins`: what reading the joined list gives, when the first list is a program.

## Main statements

* `readProgram_join`: the joined list of tokens, if the second one does not begin with `else`.
* `Program.ofSource_join`: for texts.  If the second one is no program then neither is the joined
  text, and its error is the same at a later place.
-/

namespace Edict

open Grammar

variable {ts us rest : List Token} {t : Token}

/-! ## Where the second text begins -/

/-- No program begins with `else`. -/
theorem readProgram_ne_else {p : Program} (hp : readProgram ts = .ok p) :
    (Token.peek (Token.skipNewlines ts)).kind ≠ .keyword .elseKw := by
  intro helse
  obtain ⟨nl, hnl, hts⟩ := Derives.exists_newlines ts
  rcases hskip : Token.skipNewlines ts with _ | ⟨t, rest⟩
  · rw [hskip] at helse
    cases helse
  · rw [hskip] at hts helse
    rw [peek_cons] at helse
    have hskip : Token.skipSeparators ts = t :: rest := by
      rw [hts, skipSeparators_append hnl.separators, skipSeparators_cons (by rw [helse]; rfl)]
    rw [readProgram_of_statement hskip (by rw [helse]; nofun), readStatement,
      Seam.statement_eq_error] at hp
    · cases hp
    · unfold startsStatement
      rw [peek_cons, helse]

namespace Seam

variable {m : Seam} {i j : Nat} {tail : Except Failure Program}

/-! ## Programs are read in parallel -/

/-- Parallel lists, behind separators, end or part or have a token of the same kind. -/
theorem Parallel.skipSeparators (h : m.Parallel ts us) :
    (∃ ts' us', m.final ts' us' ∧ Token.skipSeparators ts = Token.skipSeparators ts' ∧
      Token.skipSeparators us = Token.skipSeparators us') ∨
    ∃ t u ts' us', Token.skipSeparators ts = t :: ts' ∧ Token.skipSeparators us = u :: us' ∧
      t.kind ≠ .eof ∧ u.kind ≠ .eof ∧ m.Parallel (t :: ts') (u :: us') := by
  induction h with
  | @final ts us h => exact .inl ⟨ts, us, h, rfl, rfl⟩
  | @cons t u ts us heof hsame hrest ih =>
      have hkind := m.kind_eq hsame
      rcases hsep : t.kind.isSeparator
      · exact .inr ⟨t, u, ts, us, skipSeparators_cons hsep _,
          skipSeparators_cons (by rw [hkind, hsep]) _, heof, by rwa [hkind],
          .cons heof hsame hrest⟩
      · have hskip : ∀ {v : Token} {vs : List Token}, v.kind.isSeparator = true →
            Token.skipSeparators (v :: vs) = Token.skipSeparators vs :=
          fun hv => List.dropWhile_cons_of_pos hv
        rw [hskip hsep, hskip (by rw [hkind, hsep])]
        exact ih

/-- A statement ends before both lists or before none, for the same reason. -/
theorem statementEnd_parallel (h : m.Parallel ts us) :
    statementEnd ts = .ok () ∧ statementEnd us = .ok () ∨
      ∃ f g : Failure, statementEnd ts = .error f ∧ statementEnd us = .error g ∧
        f.problem = g.problem ∧ m.Parallel f.rest g.rest := by
  have hstops : ∀ vs, (Token.peek vs).kind.stops = true → statementEnd vs = .ok () := by
    intro vs hvs
    unfold statementEnd
    rcases TokenKind.eq_of_stops hvs with hk | hk
    · rw [hk]
      rfl
    · rw [hk]
      rfl
  rcases h.peek with hkind | ⟨hts, hus⟩
  · unfold statementEnd
    rw [hkind]
    split
    · exact .inr ⟨_, _, rfl, rfl, rfl, h⟩
    · split
      · exact .inl ⟨rfl, rfl⟩
      · exact .inr ⟨_, _, rfl, rfl, rfl, h⟩
  · exact .inl ⟨hstops ts hts, hstops us hus⟩

/-- What the second list is read as, given what the first one is: a program that `tail` goes on, the
same mistake, or anything if the first list has a mistake and may be left behind. -/
inductive Joins (m : Seam) (tail : Except Failure Program) :
    Except Failure Program → Except Failure Program → Prop
  | ok {p : Program} {o : Except Failure Program} : o = tail.map (p ++ ·) → Joins m tail (.ok p) o
  | error {f g : Failure} : f.problem = g.problem → m.Parallel f.rest g.rest →
      Joins m tail (.error f) (.error g)
  | lost {f : Failure} {o : Except Failure Program} : m.lax → Joins m tail (.error f) o

/-- One more statement in front. -/
theorem Joins.statement {o : Grammar.Outcome Stmt i} {o' : Grammar.Outcome Stmt j} (h : m.Tracks o o')
    (hmore : ∀ r r', r.length < i → m.Parallel r r' →
      m.Joins tail (readProgram r) (readProgram r')) :
    m.Joins tail
      (do
        let s ← o
        statementEnd s.rest
        let more ← readProgram s.rest
        return s.value :: more)
      (do
        let s ← o'
        statementEnd s.rest
        let more ← readProgram s.rest
        return s.value :: more) := by
  cases h with
  | error hproblem hrest => exact .error hproblem hrest
  | lost hlax => exact .lost hlax
  | @ok s s' hvalue hrest =>
      have hmore := hmore s.rest s'.rest s.shorter hrest
      show m.Joins tail
        (statementEnd s.rest >>= fun _ => readProgram s.rest >>= fun more => .ok (s.value :: more))
        (statementEnd s'.rest >>= fun _ => readProgram s'.rest >>= fun more => .ok (s'.value :: more))
      rcases statementEnd_parallel hrest with ⟨hend, hend'⟩ | ⟨f, g, hend, hend', hproblem, hrest⟩
      · rw [hend, hend', hvalue]
        show m.Joins tail (readProgram s.rest >>= fun more => .ok (s'.value :: more))
          (readProgram s'.rest >>= fun more => .ok (s'.value :: more))
        generalize readProgram s.rest = r at hmore ⊢
        generalize readProgram s'.rest = r' at hmore ⊢
        cases hmore with
        | @ok p _ hp =>
            refine .ok ?_
            rw [hp]
            cases tail <;> rfl
        | error hproblem hrest => exact .error hproblem hrest
        | lost hlax => exact .lost hlax
      · rw [hend, hend']
        exact .error hproblem hrest

/-- Programs are read in parallel, up to what the lists end with. -/
theorem readProgram_joins
    (hlast : ∀ ts us, m.final ts us → readProgram ts = .ok [] ∧ readProgram us = tail)
    {ts us : List Token} (h : m.Parallel ts us) :
    m.Joins tail (readProgram ts) (readProgram us) := by
  rcases h.skipSeparators with ⟨ts', us', hends, hts, hus⟩ | ⟨t, u, ts', us', hts, hus, ht, hu, h⟩
  · obtain ⟨hts', hus'⟩ := hlast ts' us' hends
    rw [readProgram_congr hts, readProgram_congr hus, hts', hus']
    refine .ok ?_
    cases tail <;> rfl
  · have hshorter := Token.length_lt_of_skipSeparators hts
    rw [readProgram_of_statement hts ht, readProgram_of_statement hus hu]
    refine .statement (readStatement_tracks (.inl h)) fun r r' hr hrest => ?_
    exact readProgram_joins hlast hrest
termination_by ts.length
decreasing_by exact Nat.lt_of_lt_of_le hr hshorter

/-! ## The two seams -/

/-- Where the first list ends, up to line breaks, the second one goes on with a line break and
`us`. -/
def lineFeed (us : List Token)
    (helse : (Token.peek (Token.skipNewlines us)).kind ≠ .keyword .elseKw) : Seam where
  lax := True
  same t u := u = t
  final ts vs := ∃ nl e s, Derives.Newlines nl ∧ ts = nl ++ [⟨.eof, e⟩] ∧ vs = ⟨.newline, s⟩ :: us
  kind_eq := by
    rintro t _ rfl
    rfl
  stops := by
    rintro _ _ ⟨nl, e, s, hnl, rfl, rfl⟩
    refine ⟨?_, rfl⟩
    rcases nl with _ | ⟨t, nl⟩
    · rfl
    · exact Bool.or_eq_true_iff.mpr (.inl (hnl t List.mem_cons_self))
  skip := by
    rintro _ _ ⟨nl, e, s, hnl, rfl, rfl⟩
    refine .inr ⟨trivial, ?_, helse⟩
    rw [skipNewlines_append hnl]
    rfl

/-- The tokens `us`, up to the end of the input, and what they are `k` bytes later. -/
def moved (us : List Token) (k : Nat) : Seam where
  lax := False
  same t u := t ∈ us ∧ u = t.shift k
  final ts vs := ∃ e, ⟨.eof, e⟩ ∈ us ∧ ts = [⟨.eof, e⟩] ∧ vs = [Token.shift k ⟨.eof, e⟩]
  kind_eq := by
    rintro t _ ⟨-, rfl⟩
    rfl
  stops := by
    rintro _ _ ⟨e, -, rfl, rfl⟩
    exact ⟨rfl, rfl⟩
  skip := by
    rintro _ _ ⟨e, he, rfl, rfl⟩
    exact .inl ⟨e, he, rfl, rfl⟩

/-- Tokens in front of parallel lists. -/
theorem Parallel.append {f : Token → Token} (h : m.Parallel ts us) {init : List Token}
    (hinit : ∀ t ∈ init, t.kind ≠ .eof ∧ m.same t (f t)) :
    m.Parallel (init ++ ts) (init.map f ++ us) := by
  induction init with
  | nil => exact h
  | cons t init ih =>
      obtain ⟨⟨heof, hsame⟩, hinit⟩ := List.forall_mem_cons.mp hinit
      exact .cons heof hsame (ih hinit)

/-- The first of the tokens is one of those that moved, and its counterpart is where it moved to. -/
theorem Parallel.token_moved {vs : List Token} {k : Nat} (h : (moved vs k).Parallel ts us) :
    Token.peek ts ∈ vs ∧ Token.peek us = (Token.peek ts).shift k := by
  cases h with
  | final h =>
      obtain ⟨e, he, rfl, rfl⟩ := h
      exact ⟨he, rfl⟩
  | cons _ hsame _ => exact hsame

end Seam

/-! ## Programs at later places and behind one another -/

/-- All tokens of a text have moved, up to the end of the input. -/
theorem EndsInput.parallel_moved {init vs : List Token} (h : EndsInput init ts)
    (hvs : ∀ t ∈ ts, t ∈ vs) (k : Nat) :
    (Seam.moved vs k).Parallel ts (ts.map (·.shift k)) := by
  obtain ⟨nl, e, rfl, hnl, hinit⟩ := h
  rw [← List.append_assoc] at hvs ⊢
  obtain ⟨hbefore, hlast⟩ := List.forall_mem_append.mp hvs
  have hne : ∀ t ∈ init ++ nl, t.kind ≠ .eof :=
    List.forall_mem_append.mpr ⟨hinit, Derives.Newlines.ne_eof hnl⟩
  have hlast : (Seam.moved vs k).Parallel [⟨.eof, e⟩] [Token.shift k ⟨.eof, e⟩] :=
    .final ⟨e, hlast _ (List.mem_singleton_self _), rfl, rfl⟩
  rw [List.map_append]
  exact hlast.append fun t ht => ⟨hne t ht, hbefore t ht, rfl⟩

/-- What a program is does not depend on where it stands, and mistakes move with it. -/
theorem readProgram_shift {init : List Token} (h : EndsInput init ts) (k : Nat) :
    (∀ p, readProgram ts = .ok p → readProgram (ts.map (·.shift k)) = .ok p) ∧
    ∀ f, readProgram ts = .error f → f.token ∈ ts ∧
      ∃ g, readProgram (ts.map (·.shift k)) = .error g ∧ g.problem = f.problem ∧
        g.token = f.token.shift k := by
  have hlast : ∀ vs ws, (Seam.moved ts k).final vs ws →
      readProgram vs = .ok [] ∧ readProgram ws = .ok [] := by
    rintro _ _ ⟨e, -, rfl, rfl⟩
    exact ⟨readProgram_of_eof rfl, readProgram_of_eof rfl⟩
  have hjoins := Seam.readProgram_joins hlast (h.parallel_moved (fun _ ht => ht) k)
  generalize readProgram ts = r at hjoins ⊢
  generalize readProgram (ts.map (·.shift k)) = r' at hjoins ⊢
  cases hjoins with
  | @ok p _ hr =>
      refine ⟨?_, nofun⟩
      rintro _ ⟨⟩
      rw [hr]
      exact congrArg _ (List.append_nil p)
  | @error f g hproblem hrest =>
      refine ⟨nofun, ?_⟩
      rintro _ ⟨⟩
      obtain ⟨hmem, hmoved⟩ := hrest.token_moved
      exact ⟨hmem, g, rfl, hproblem.symm, hmoved⟩
  | lost hlax => exact hlax.elim

/-- A program with a line break for the end of the input, in front of another list. -/
theorem readProgram_join {init : List Token} {p : Program} {s : Span} (h : EndsInput init ts)
    (hp : readProgram ts = .ok p)
    (helse : (Token.peek (Token.skipNewlines us)).kind ≠ .keyword .elseKw) :
    readProgram (init ++ ⟨.newline, s⟩ :: us) = (readProgram us).map (p ++ ·) := by
  obtain ⟨nl, e, rfl, hnl, hinit⟩ := h
  have hparallel : (Seam.lineFeed us helse).Parallel (init ++ (nl ++ [⟨.eof, e⟩]))
      (init ++ ⟨.newline, s⟩ :: us) := by
    have hlast : (Seam.lineFeed us helse).Parallel (nl ++ [⟨.eof, e⟩]) (⟨.newline, s⟩ :: us) :=
      .final ⟨nl, e, s, hnl, rfl, rfl⟩
    have hinit : ∀ t ∈ init, t.kind ≠ .eof ∧ (Seam.lineFeed us helse).same t (id t) :=
      fun t ht => ⟨hinit t ht, rfl⟩
    have happend := hlast.append hinit
    rwa [List.map_id] at happend
  have hlast : ∀ vs ws, (Seam.lineFeed us helse).final vs ws →
      readProgram vs = .ok [] ∧ readProgram ws = readProgram us := by
    rintro _ _ ⟨nl, e, s, hnl, rfl, rfl⟩
    refine ⟨readProgram_of_eof ?_, readProgram_congr (List.dropWhile_cons_of_pos rfl)⟩
    rw [skipSeparators_append (Derives.Newlines.separators hnl)]
    rfl
  have hjoins := Seam.readProgram_joins hlast hparallel
  rw [hp] at hjoins
  generalize readProgram (init ++ ⟨.newline, s⟩ :: us) = r at hjoins ⊢
  cases hjoins with
  | ok hr => exact hr

/-- Moved lists begin with the same kind of token behind line breaks. -/
theorem kind_peek_shift (us : List Token) (k : Nat) :
    (Token.peek (Token.skipNewlines (us.map (·.shift k)))).kind =
      (Token.peek (Token.skipNewlines us)).kind := by
  have hskip : Token.skipNewlines (us.map (·.shift k)) = (Token.skipNewlines us).map (·.shift k) :=
    List.dropWhile_map ..
  rw [hskip]
  cases Token.skipNewlines us <;> rfl

/-! ## Joined texts -/

namespace Program

/-- A text is a program if it has tokens that are one. -/
theorem ofSource_eq_ok {source : String} {p : Program} :
    ofSource source = .ok p ↔ ∃ ts, Token.scan source = .ok ts ∧ readProgram ts = .ok p := by
  unfold ofSource
  rcases Token.scan source with e | ts
  · exact ⟨nofun, nofun⟩
  · show (readProgram ts).mapError SourceError.grammar = .ok p ↔ _
    rcases hread : readProgram ts with f | q <;> simp [Except.mapError, hread]

/-- A text has a mistake in its grammar if it has tokens that have one. -/
theorem ofSource_eq_grammar {source : String} {f : Failure} :
    ofSource source = .error (.grammar f) ↔
      ∃ ts, Token.scan source = .ok ts ∧ readProgram ts = .error f := by
  unfold ofSource
  rcases Token.scan source with e | ts
  · exact ⟨nofun, nofun⟩
  · show (readProgram ts).mapError SourceError.grammar = .error (.grammar f) ↔ _
    rcases hread : readProgram ts with g | q <;> simp [Except.mapError, hread]

/-- What the tokens of a text are read as behind a program and a line feed. -/
theorem ofSource_join_eq {s₁ s₂ : String} {p₁ : Program} (h : ofSource s₁ = .ok p₁)
    {us : List Token} (hscan : Token.scan s₂ = .ok us)
    (helse : (Token.peek (Token.skipNewlines us)).kind ≠ .keyword .elseKw) :
    ofSource (s₁ ++ "\n" ++ s₂) =
      ((readProgram (us.map (·.shift (s₁.utf8ByteSize + 1)))).map (p₁ ++ ·)).mapError .grammar := by
  obtain ⟨ts, hts, hp⟩ := ofSource_eq_ok.mp h
  obtain ⟨init, s, hends, hjoin⟩ := Token.scan_join hts hscan
  rw [← kind_peek_shift us (s₁.utf8ByteSize + 1)] at helse
  rw [← readProgram_join hends hp helse (s := s), ofSource, hjoin]
  rfl

/-- Two programs with a line feed between them are one program, with the statements of the first one
in front of those of the second one.  If only the second one has a mistake in its grammar, and does
not begin with `else`, the mistake is reported for the joined text, at the same token: in the same
words, and behind the first text and the line feed. -/
theorem ofSource_join {s₁ : String} {p₁ : Program} (h : ofSource s₁ = .ok p₁) (s₂ : String) :
    (∀ p₂, ofSource s₂ = .ok p₂ → ofSource (s₁ ++ "\n" ++ s₂) = .ok (p₁ ++ p₂)) ∧
    ∀ f, ofSource s₂ = .error (.grammar f) →
      (∀ ts, Token.scan s₂ = .ok ts →
        (Token.peek (Token.skipNewlines ts)).kind ≠ .keyword .elseKw) →
      ∃ g, ofSource (s₁ ++ "\n" ++ s₂) = .error (.grammar g) ∧ g.message = f.message ∧
        g.span = f.span.shift (s₁.utf8ByteSize + 1) ∧
        ((s₁ ++ "\n" ++ s₂).utf8ByteSize ≤ Span.limit →
          g.span = ⟨f.span.start + (s₁.utf8ByteSize + 1), f.span.stop + (s₁.utf8ByteSize + 1)⟩) := by
  constructor
  · intro p₂ h₂
    obtain ⟨us, hscan, hp⟩ := ofSource_eq_ok.mp h₂
    obtain ⟨init, hends⟩ := (scanFrom_eq_iff.mp hscan).endsInput rfl
    rw [ofSource_join_eq h hscan (readProgram_ne_else hp), (readProgram_shift hends _).1 p₂ hp]
    rfl
  · intro f h₂ helse
    obtain ⟨us, hscan, hf⟩ := ofSource_eq_grammar.mp h₂
    obtain ⟨init, hends⟩ := (scanFrom_eq_iff.mp hscan).endsInput rfl
    obtain ⟨hmem, g, hg, hproblem, htoken⟩ :=
      (readProgram_shift hends (s₁.utf8ByteSize + 1)).2 f hf
    have hspan : g.span = f.span.shift (s₁.utf8ByteSize + 1) := congrArg Token.span htoken
    refine ⟨g, ?_, ?_, hspan, fun hsize => ?_⟩
    · rw [ofSource_join_eq h hscan (helse us hscan), hg]
      rfl
    · unfold Failure.message
      rw [hproblem, htoken]
      rfl
    · rw [hspan]
      refine Token.span_shift_of_scan hscan hmem ?_
      rw [String.utf8ByteSize_append, String.utf8ByteSize_append] at hsize
      have hline : "\n".utf8ByteSize = 1 := rfl
      omega

/-- A branch without `else`, a semicolon behind it and a carriage return, which makes one line break
with the line feed; behind it a program, and a text that has a mistake at its end. -/
theorem ofSource_join_branch :
    ofSource ("if a then b = 1.;\r" ++ "\n" ++ "c = b") =
        .ok [.branch (.ident "a") [.assign (.ident "b") .set (.lit (.number 1))] none,
          .assign (.ident "c") .set (.ident "b")] ∧
      ∃ g, ofSource ("if a then b = 1.;\r" ++ "\n" ++ "c =") = .error (.grammar g) ∧
        g.message = "expected value, found end of input" ∧ g.span = ⟨22, 22⟩ := by
  have hbranch : ofSource "if a then b = 1.;\r" =
      .ok [.branch (.ident "a") [.assign (.ident "b") .set (.lit (.number 1))] none] :=
    ofSource_eq_ok.mpr
      ⟨[⟨.keyword .ifKw, ⟨0, 2⟩⟩, ⟨.ident "a", ⟨3, 4⟩⟩, ⟨.keyword .thenKw, ⟨5, 9⟩⟩,
          ⟨.ident "b", ⟨10, 11⟩⟩, ⟨.symbol .eq, ⟨12, 13⟩⟩, ⟨.number (.ofWritten false 1), ⟨14, 16⟩⟩,
          ⟨.symbol .semicolon, ⟨16, 17⟩⟩, ⟨.newline, ⟨17, 18⟩⟩, ⟨.eof, ⟨18, 18⟩⟩],
        by decide +kernel, by with_unfolding_all rfl⟩
  have hassign : ofSource "c = b" = .ok [.assign (.ident "c") .set (.ident "b")] :=
    ofSource_eq_ok.mpr
      ⟨[⟨.ident "c", ⟨0, 1⟩⟩, ⟨.symbol .eq, ⟨2, 3⟩⟩, ⟨.ident "b", ⟨4, 5⟩⟩, ⟨.eof, ⟨5, 5⟩⟩],
        by decide +kernel, by with_unfolding_all rfl⟩
  have hscan : Token.scan "c =" =
      .ok [⟨.ident "c", ⟨0, 1⟩⟩, ⟨.symbol .eq, ⟨2, 3⟩⟩, ⟨.eof, ⟨3, 3⟩⟩] := by decide +kernel
  have hmistake : ofSource "c =" = .error (.grammar (.expecting .value [⟨.eof, ⟨3, 3⟩⟩])) :=
    ofSource_eq_grammar.mpr ⟨_, hscan, by with_unfolding_all rfl⟩
  refine ⟨(ofSource_join hbranch "c = b").1 _ hassign, ?_⟩
  obtain ⟨g, hg, hmessage, -, hspan⟩ := (ofSource_join hbranch "c =").2 _ hmistake (by
    intro ts hts
    cases hscan.symm.trans hts
    nofun)
  exact ⟨g, hg, hmessage, hspan (by decide)⟩

end Program

end Edict

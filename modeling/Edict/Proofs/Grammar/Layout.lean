import Edict.Proofs.Grammar.Locality
import Edict.Proofs.Token.Restyling

/-!
# Layout does not matter

A text that is written in another way (`Restyled`) is the same program, or it has the same mistake
at the same one of its tokens (`Program.ofSource_restyled`).  It is cut into tokens of the same
kinds, and lists of such tokens are parallel (`Seam.sameKinds`): no reader looks at where a token
stands.

## Main definitions

* `Seam.sameKinds`: two lists with the same kinds of tokens.

## Main statements

* `readProgram_of_kinds`: what a list is read as depends on the kinds of its tokens.
* `Program.ofSource_restyled`: for every text that is cut into tokens, and any of its other layouts.
-/

namespace Edict

open Grammar

variable {ts us : List Token}

namespace Seam

/-- Tokens of the same kinds up to the end of the input, and as many behind it. -/
def sameKinds : Seam where
  lax := False
  same t u := u.kind = t.kind
  final ts us := (Token.peek ts).kind = .eof ∧ (Token.peek us).kind = .eof ∧ us.length = ts.length
  kind_eq h := h
  stops := by
    rintro ts us ⟨hts, hus, -⟩
    rw [hts, hus]
    exact ⟨rfl, rfl⟩
  skip := by
    rintro ts us ⟨hts, hus, hlength⟩
    rw [skipNewlines_of_eof hts, skipNewlines_of_eof hus]
    exact .inl ⟨hts, hus, hlength⟩

/-- Lists of tokens of the same kinds are parallel. -/
theorem parallel_sameKinds (h : us.map (·.kind) = ts.map (·.kind)) : sameKinds.Parallel ts us := by
  induction ts generalizing us with
  | nil =>
      obtain rfl := List.map_eq_nil_iff.mp h
      exact .final ⟨rfl, rfl, rfl⟩
  | cons t ts ih =>
      obtain ⟨u, us, rfl, hkind, hrest⟩ := List.map_eq_cons_iff.mp h
      by_cases heof : t.kind = .eof
      · have hlength := congrArg List.length h
        rw [List.length_map, List.length_map] at hlength
        exact .final ⟨heof, hkind.trans heof, hlength⟩
      · exact .cons heof hkind (ih hrest)

/-- Such lists are of the same length. -/
theorem Parallel.length_sameKinds (h : sameKinds.Parallel ts us) : us.length = ts.length := by
  induction h with
  | final h => exact h.2.2
  | cons _ _ _ ih => exact congrArg (· + 1) ih

/-- Such lists begin with tokens of the same kind. -/
theorem Parallel.kind_sameKinds (h : sameKinds.Parallel ts us) :
    (Token.peek us).kind = (Token.peek ts).kind := by
  cases h with
  | final h => rw [h.1, h.2.1]
  | cons _ hsame _ => exact hsame

end Seam

/-- Tokens of the same kinds are read as the same program, or there is the same mistake at the same
place. -/
theorem readProgram_of_kinds (h : us.map (·.kind) = ts.map (·.kind)) :
    (∃ p, readProgram ts = .ok p ∧ readProgram us = .ok p) ∨
      ∃ f g, readProgram ts = .error f ∧ readProgram us = .error g ∧ g.message = f.message ∧
        g.index us = f.index ts := by
  have hlast : ∀ vs ws, Seam.sameKinds.final vs ws →
      readProgram vs = .ok [] ∧ readProgram ws = .ok [] :=
    fun vs ws hfinal => ⟨readProgram_nil_of_eof hfinal.1, readProgram_nil_of_eof hfinal.2.1⟩
  have hparallel := Seam.parallel_sameKinds h
  have hjoins := Seam.readProgram_joins hlast hparallel
  generalize readProgram ts = r at hjoins ⊢
  generalize readProgram us = r' at hjoins ⊢
  cases hjoins with
  | @ok p _ hr =>
      rw [hr]
      exact .inl ⟨p, rfl, congrArg Except.ok (List.append_nil p)⟩
  | @error f g hproblem hrest =>
      refine .inr ⟨f, g, rfl, rfl, ?_, ?_⟩
      · unfold Failure.message Failure.token
        rw [hproblem, hrest.kind_sameKinds]
      · unfold Failure.index
        rw [hparallel.length_sameKinds, hrest.length_sameKinds]
  | lost hlax => exact hlax.elim

/-- The tokens of a text end with their first end of input. -/
theorem Token.throughEof_of_scan {source : String} (h : scan source = .ok ts) :
    throughEof ts = ts := by
  obtain ⟨init, nl, e, rfl, hnl, hinit⟩ := (scanFrom_eq_iff.mp h).endsInput rfl
  have hne : ∀ t ∈ init ++ nl, t.kind ≠ .eof :=
    List.forall_mem_append.mpr ⟨hinit, Derives.Newlines.ne_eof hnl⟩
  rw [← List.append_assoc]
  exact throughEof_append hne rfl

namespace Program

/-- A text that is written in another way, with more blanks between words, other letter cases of
reserved words, other quotes around texts or other line breaks, is the same program, or it has the
same mistake in its grammar, at the token of the same index. -/
theorem ofSource_restyled {style : Option LineStyle} {s s' : String}
    (h : Restyled style s.toList s'.toList) :
    ∃ ts ts', Token.scan s = .ok ts ∧ Token.scan s' = .ok ts' ∧
      ((∃ p, ofSource s = .ok p ∧ ofSource s' = .ok p) ∨
        ∃ f g, ofSource s = .error (.grammar f) ∧ ofSource s' = .error (.grammar g) ∧
          g.message = f.message ∧ g.index ts' = f.index ts ∧
          ts[f.index ts]? = some f.token ∧ ts'[g.index ts']? = some g.token) := by
  obtain ⟨ts, ts', hscans, hscans', hkinds⟩ := h.scans 0 0
  have hscan : Token.scan s = .ok ts := hscans.scanFrom_eq
  have hscan' : Token.scan s' = .ok ts' := hscans'.scanFrom_eq
  refine ⟨ts, ts', hscan, hscan', ?_⟩
  rcases readProgram_of_kinds hkinds with ⟨p, hp, hp'⟩ | ⟨f, g, hf, hg, hmessage, hindex⟩
  · exact .inl ⟨p, ofSource_eq_ok.mpr ⟨ts, hscan, hp⟩, ofSource_eq_ok.mpr ⟨ts', hscan', hp'⟩⟩
  · have htoken := Failure.token_throughEof (readProgram_reaches ts hf)
    have htoken' := Failure.token_throughEof (readProgram_reaches ts' hg)
    rw [Token.throughEof_of_scan hscan] at htoken
    rw [Token.throughEof_of_scan hscan'] at htoken'
    exact .inr ⟨f, g, ofSource_eq_grammar.mpr ⟨ts, hscan, hf⟩,
      ofSource_eq_grammar.mpr ⟨ts', hscan', hg⟩, hmessage, hindex, htoken, htoken'⟩

/-- Blanks around a sign, in front of a number with its point; and a branch without `then`, with
another letter case, other quotes and another line break. -/
theorem ofSource_restyled_branch :
    ofSource "a -=\t1." = .ok [.assign (.ident "a") .sub (.lit (.number 1))] ∧
      ∃ g, ofSource "IF a==\"x\"\r\n" = .error (.grammar g) ∧
        g.message = "expected `then`, found line break" := by
  have hassign : Restyled none "a-=1.".toList "a -=\t1.".toList := by
    have hnumber : Restyled none "1.".toList "1.".toList :=
      @Restyled.word none .number (.number (.ofWritten false 1)) ['1', '.'] ['1', '.'] [] [] ⟨3, 5⟩
        (by decide) (by decide +kernel) (by decide +kernel) (.same nofun) .finish
    have hsign : Restyled none "-=1.".toList "-=\t1.".toList :=
      @Restyled.word none (.fixed (.symbol .minusEq)) (.symbol .minusEq) ['-', '='] ['-', '='] _ _
        ⟨1, 3⟩ (by decide) (by decide +kernel) rfl (.same nofun) (.insert rfl hnumber)
    exact @Restyled.word none .name (.ident "a") ['a'] ['a'] _ _ ⟨0, 1⟩ (by decide)
      (by decide +kernel) rfl (.same nofun) (.insert rfl hsign)
  have hbranch : Restyled (some .crlf) "if a=='x'\n".toList "IF a==\"x\"\r\n".toList := by
    have hbreak : Restyled (some .crlf) "\n".toList "\r\n".toList :=
      @Restyled.word _ (.fixed .newline) .newline ['\n'] ['\r', '\n'] [] [] ⟨9, 10⟩ (by decide)
        (by decide +kernel) rfl (.lineBreak (b := .crlf) rfl) .finish
    have htext : Restyled (some .crlf) "'x'\n".toList "\"x\"\r\n".toList :=
      @Restyled.word _ .quotedText (.text "x") ['\'', 'x', '\''] ['"', 'x', '"'] _ _ ⟨6, 9⟩
        (by decide) (by decide +kernel) rfl (@Respells.quotes _ _ '\'' '"' ['x'] (by decide) (by decide))
        hbreak
    have hsign : Restyled (some .crlf) "=='x'\n".toList "==\"x\"\r\n".toList :=
      @Restyled.word _ (.fixed (.symbol .eqEq)) (.symbol .eqEq) ['=', '='] ['=', '='] _ _ ⟨4, 6⟩
        (by decide) (by decide +kernel) rfl (.same nofun) htext
    have hname : Restyled (some .crlf) "a=='x'\n".toList "a==\"x\"\r\n".toList :=
      @Restyled.word _ .name (.ident "a") ['a'] ['a'] _ _ ⟨3, 4⟩ (by decide) (by decide +kernel) rfl
        (.same nofun) hsign
    exact @Restyled.word _ (.fixed (.keyword .ifKw)) (.keyword .ifKw) ['i', 'f'] ['I', 'F'] _ _ ⟨0, 2⟩
      (by decide) (by decide +kernel) rfl (.letters (by decide) (by decide)) (.blank rfl hname)
  have hprogram : ofSource "a-=1." = .ok [.assign (.ident "a") .sub (.lit (.number 1))] :=
    ofSource_eq_ok.mpr
      ⟨[⟨.ident "a", ⟨0, 1⟩⟩, ⟨.symbol .minusEq, ⟨1, 3⟩⟩, ⟨.number (.ofWritten false 1), ⟨3, 5⟩⟩,
          ⟨.eof, ⟨5, 5⟩⟩],
        by decide +kernel, by with_unfolding_all rfl⟩
  have hmistake : ofSource "if a=='x'\n" =
      .error (.grammar (.expecting .thenWord [⟨.newline, ⟨9, 10⟩⟩, ⟨.eof, ⟨10, 10⟩⟩])) :=
    ofSource_eq_grammar.mpr
      ⟨[⟨.keyword .ifKw, ⟨0, 2⟩⟩, ⟨.ident "a", ⟨3, 4⟩⟩, ⟨.symbol .eqEq, ⟨4, 6⟩⟩, ⟨.text "x", ⟨6, 9⟩⟩,
          ⟨.newline, ⟨9, 10⟩⟩, ⟨.eof, ⟨10, 10⟩⟩],
        by decide +kernel, by with_unfolding_all rfl⟩
  obtain ⟨_, _, _, _, hsame⟩ := ofSource_restyled hassign
  obtain ⟨_, _, _, _, hsame'⟩ := ofSource_restyled hbranch
  rw [hprogram] at hsame
  rw [hmistake] at hsame'
  constructor
  · rcases hsame with ⟨p, hp, hp'⟩ | ⟨f, -, hf, -⟩
    · rw [hp', hp]
    · cases hf
  · rcases hsame' with ⟨p, hp, -⟩ | ⟨f, g, hf, hg, hmessage, -⟩
    · cases hp
    · cases hf
      exact ⟨g, hg, hmessage⟩

end Program

end Edict

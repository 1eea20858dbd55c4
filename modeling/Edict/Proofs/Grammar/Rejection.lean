import Edict.Proofs.Grammar.Joining
import Edict.Proofs.Grammar.Progress
import Edict.Proofs.Token.Stopping

/-!
# Texts that are no programs

Where the error of a text that is no program is reported: at a part of the text that exists.  For a
mistake in the grammar this is the place of one of the tokens, for the end of the input too, so that
the token that stands behind every list is never reported (`readProgram_token_mem`).  For a scan
that stops it is the place right behind what the scan has taken, and the text up to there has the
tokens that were found before (`Scans.stopsAt`).

## Main definitions

* `ScanError.StopsAt`: where a scan has stopped, and what it has taken before.
* `SourceError.WellPlaced`: everything that is said of the place of an error.

## Main statements

* `Scans.stopsAt`: for every error of the scan.
* `Program.ofSource_rejects`: for every text that is no program, up to the limit of spans.
-/

namespace Edict

open Grammar Rule

/-! ## The token of a mistake -/

/-- A mistake in tokens that end with the end of the input is reported at one of them. -/
theorem readProgram_token_mem {init ts : List Token} (h : EndsInput init ts) {f : Failure}
    (hf : readProgram ts = .error f) : f.token ∈ ts := by
  obtain ⟨used, hused, hrest⟩ := readProgram_reaches ts hf
  obtain ⟨nl, s, hts, -, -⟩ := h
  have hne : f.rest ≠ [] := by
    intro hnil
    -- the end of the input would have been used
    have heof : (⟨.eof, s⟩ : Token) ∈ used := by
      rw [hnil, List.append_nil] at hrest
      simp [← hrest, hts]
    exact hused _ heof rfl
  obtain ⟨t, rest, hcons⟩ := List.exists_cons_of_ne_nil hne
  have hmem : t ∈ ts := by simp [hrest, hcons]
  unfold Failure.token
  rwa [hcons, peek_cons]

/-! ## The place where a scan stops -/

/-- The error is about the word `w`, which stands behind `before`: the text up to `w` is what the
scan has taken, which is `ts`, and it has these tokens by itself, up to the end of its input. -/
structure ScanError.StopsAt (source : String) (e : ScanError) (before w : List Char)
    (ts : List Token) : Prop where
  takes : ∃ after, source.toList = before ++ (w ++ after) ∧ Takes 0 before (w ++ after) ts
  sliced : ∀ t ∈ ts, t.Sliced source.toList
  scan_before : Token.scan (String.ofList before) =
    .ok (ts ++ [⟨.eof, ⟨utf8Length before, utf8Length before⟩⟩])
  /-- The error stands behind the last token, with blanks between them only. -/
  gap : BlankBetween source.toList (ts.getLast?.elim 0 (·.span.stop)) e.span.start
  span_eq : e.span = ⟨utf8Length before, utf8Length (before ++ w)⟩
  /-- The blanks end where the error begins. -/
  front : ∃ c cs, w = c :: cs ∧ isBlank c = false
  char : ∀ c span, e = .unexpectedChar c span → w = [c]

/-- What is right of a part of a text is right of the text. -/
theorem BlankBetween.append {cs : List Char} {a b : Nat} (h : BlankBetween cs a b) (ds : List Char) :
    BlankBetween (cs ++ ds) a b := by
  obtain ⟨before, gap, after, rfl, hgap, ha, hb⟩ := h
  exact ⟨before, gap, after ++ ds, by simp, hgap, ha, hb⟩

/-- Behind the last token of a text there are blanks only. -/
theorem Layout.blankBetween_last {cs : List Char} {ts : List Token} {e : Token}
    (h : Layout [] cs (ts ++ [e])) :
    BlankBetween cs (ts.getLast?.elim 0 (·.span.stop)) e.span.start := by
  have hchain := h.blankBetween ⟨0, 0⟩ rfl
  rw [List.map_append, ← List.cons_append, List.isChain_append] at hchain
  obtain ⟨-, -, hlast⟩ := hchain
  rcases List.eq_nil_or_concat ts with rfl | ⟨init, t, rfl⟩
  · exact hlast ⟨0, 0⟩ rfl e.span rfl
  · simpa using hlast t.span (by simp [List.getLast?_cons])

/-- A scan that fails stops behind what it has taken. -/
theorem Scans.stopsAt {source : String} {e : ScanError} (h : Token.scan source = .error e)
    (hsize : source.utf8ByteSize ≤ Span.limit) : ∃ before w ts, e.StopsAt source before w ts := by
  have hscans : Scans 0 source.toList (.error e) := scanFrom_eq_iff.mp h
  rcases hscans.takes with ⟨ts, -, hok⟩ | ⟨before, w, after, ts, e', hsource, htakes, heq, hstops⟩
  · cases hok
  · cases heq
    rw [utf8ByteSize_eq, hsource, utf8Length_append, utf8Length_append] at hsize
    have hbefore : utf8Length before ≤ Span.limit := by omega
    have hspan : e.span = ⟨utf8Length before, utf8Length (before ++ w)⟩ := by
      rw [hstops.span_eq, Nat.zero_add, utf8Length_append]
      exact Span.ofRange_of_le hbefore (by omega)
    have hcut := htakes.scans
    rw [Nat.zero_add, Span.ofRange_of_le hbefore hbefore] at hcut
    have hlayout : Layout [] before _ := hcut.layout rfl hbefore rfl
    have hsliced : ∀ t ∈ ts, t.Sliced ([] ++ (before ++ (w ++ after))) := htakes.sliced rfl hbefore
    refine ⟨before, w, ts, ⟨⟨after, hsource, htakes⟩, ?_, ?_, ?_, hspan, hstops.front, hstops.char⟩⟩
    · rw [hsource]
      exact hsliced
    · exact scanFrom_eq_iff.mpr (by rwa [String.toList_ofList])
    · rw [hspan, hsource]
      exact hlayout.blankBetween_last.append _

/-! ## Errors of texts -/

/-- What there is to know of the place of the error of a text that is no program. -/
structure SourceError.WellPlaced (source : String) (e : SourceError) : Prop where
  /-- It is a part of the text, which can be looked up. -/
  slice : ∃ w, slice? source.toList e.span = some w
  inside : e.span.start ≤ e.span.stop ∧ e.span.stop ≤ source.utf8ByteSize
  boundaries : OnBoundary source.toList e.span.start ∧ OnBoundary source.toList e.span.stop
  /-- For a mistake in the grammar it is the place of one of the tokens. -/
  grammar : ∀ f, e = .grammar f → ∃ ts, Token.scan source = .ok ts ∧
    (∀ t ∈ ts, t.Sliced source.toList) ∧ f.token ∈ ts ∧ e.span = f.token.span
  /-- Otherwise it is the place where the scan stops. -/
  scan : ∀ s, e = .scan s → Token.scan source = .error s ∧ e.span = s.span ∧
    ∃ before w ts, s.StopsAt source before w ts

/-- A part of a text that exists lies in the text, and between characters. -/
theorem inside_of_slice? {cs w : List Char} {s : Span} (h : slice? cs s = some w) :
    (s.start ≤ s.stop ∧ s.stop ≤ utf8Length cs) ∧ OnBoundary cs s.start ∧ OnBoundary cs s.stop := by
  obtain ⟨before, after, rfl, rfl⟩ := slice?_eq_some.mp h
  refine ⟨⟨?_, ?_⟩, ⟨before, w ++ after, rfl, rfl⟩, ⟨before ++ w, after, by simp, rfl⟩⟩
  · simp
  · simp

/-- The parts of a text that belong to its tokens exist. -/
theorem Scans.sliced {source : String} {ts : List Token} (h : Token.scan source = .ok ts)
    (hsize : source.utf8ByteSize ≤ Span.limit) : ∀ t ∈ ts, t.Sliced source.toList := by
  have hscans : Scans 0 source.toList (.ok ts) := scanFrom_eq_iff.mp h
  rw [utf8ByteSize_eq] at hsize
  rcases hscans.takes with ⟨init, htakes, heq⟩ | ⟨_, _, _, _, _, _, _, herror, _⟩
  · cases heq
    have hinit : ∀ t ∈ init, t.Sliced ([] ++ (source.toList ++ [])) := htakes.sliced rfl hsize
    rw [List.nil_append, List.append_nil] at hinit
    refine List.forall_mem_append.mpr ⟨hinit, List.forall_mem_singleton.mpr ⟨[], ?_, nofun⟩⟩
    rw [Nat.zero_add, Span.ofRange_of_le hsize hsize]
    exact slice?_eq_some.mpr ⟨source.toList, [], by simp, by simp⟩
  · cases herror

namespace Program

/-- A text has no tokens if its scan fails. -/
theorem ofSource_eq_scan {source : String} {e : ScanError} :
    ofSource source = .error (.scan e) ↔ Token.scan source = .error e := by
  unfold ofSource
  rcases hscan : Token.scan source with e' | ts
  · exact ⟨by rintro ⟨⟩; rfl, by rintro ⟨⟩; rfl⟩
  · show (readProgram ts).mapError SourceError.grammar = .error (.scan e) ↔ _
    rcases readProgram ts with f | p <;> exact ⟨nofun, nofun⟩

/-- The error of every text that is shorter than 2^32 bytes and no program is well placed: its span
is a part of the text that can be looked up, between characters.  A mistake in the grammar is at one
of the tokens of the text, and the slices of all tokens exist; an error of the scan is where the
scan stops, right behind what it has taken. -/
theorem ofSource_rejects {source : String} {e : SourceError} (h : ofSource source = .error e)
    (hsize : source.utf8ByteSize ≤ Span.limit) : e.WellPlaced source := by
  rcases e with e | f
  · have hscan : Token.scan source = .error e := ofSource_eq_scan.mp h
    obtain ⟨before, w, ts, hstops⟩ := Scans.stopsAt hscan hsize
    obtain ⟨after, hsource, -⟩ := hstops.takes
    have hslice : slice? source.toList e.span = some w :=
      slice?_eq_some.mpr ⟨before, after, hsource, hstops.span_eq⟩
    obtain ⟨hinside, hboundaries⟩ := inside_of_slice? hslice
    rw [← utf8ByteSize_eq] at hinside
    refine ⟨⟨w, hslice⟩, hinside, hboundaries, nofun, ?_⟩
    rintro _ ⟨⟩
    exact ⟨hscan, rfl, before, w, ts, hstops⟩
  · obtain ⟨ts, hscan, hf⟩ := ofSource_eq_grammar.mp h
    obtain ⟨init, hends⟩ := (scanFrom_eq_iff.mp hscan).endsInput rfl
    have hmem := readProgram_token_mem hends hf
    have hsliced := Scans.sliced hscan hsize
    obtain ⟨w, hslice, -⟩ := hsliced _ hmem
    obtain ⟨hinside, hboundaries⟩ := inside_of_slice? hslice
    rw [← utf8ByteSize_eq] at hinside
    refine ⟨⟨w, hslice⟩, hinside, hboundaries, ?_, nofun⟩
    rintro _ ⟨⟩
    exact ⟨ts, hscan, hsliced, hmem, rfl⟩

/-- A text whose scan stops behind characters of several bytes, at one that no word begins with, and
one whose first mistake is the end of the input. -/
theorem ofSource_rejects_places :
    ofSource "s = 'é€' \t§" = .error (.scan (.unexpectedChar '§' ⟨13, 15⟩)) ∧
      SourceError.WellPlaced "s = 'é€' \t§" (.scan (.unexpectedChar '§' ⟨13, 15⟩)) ∧
      ofSource "x = 'é' is" = .error (.grammar (.expecting .value [⟨.eof, ⟨11, 11⟩⟩])) ∧
      SourceError.WellPlaced "x = 'é' is"
        (.grammar (.expecting .value [⟨.eof, ⟨11, 11⟩⟩])) := by
  have hscan : ofSource "s = 'é€' \t§" = .error (.scan (.unexpectedChar '§' ⟨13, 15⟩)) :=
    ofSource_eq_scan.mpr (by decide +kernel)
  have hmistake : ofSource "x = 'é' is" =
      .error (.grammar (.expecting .value [⟨.eof, ⟨11, 11⟩⟩])) :=
    ofSource_eq_grammar.mpr
      ⟨[⟨.ident "x", ⟨0, 1⟩⟩, ⟨.symbol .eq, ⟨2, 3⟩⟩, ⟨.text "é", ⟨4, 8⟩⟩, ⟨.keyword .isKw, ⟨9, 11⟩⟩,
          ⟨.eof, ⟨11, 11⟩⟩], by decide +kernel, by with_unfolding_all rfl⟩
  exact ⟨hscan, ofSource_rejects hscan (by decide), hmistake, ofSource_rejects hmistake (by decide)⟩

end Program

end Edict

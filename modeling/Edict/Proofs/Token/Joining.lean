import Edict.Proofs.Token.Spans

/-!
# Texts joined by a line feed

No word of the language reaches over a line feed, but for quoted texts, which end at their second
quotes, and for the line break that a carriage return and the line feed make together.  So a text
that is cut into tokens is cut into the same ones when a line feed and another text follow it
(`Scans.join`): the first of the new tokens is a line break, which stands in place of the end of
the input, or of a last carriage return and the end.

The tokens of the second text are those that it has on its own, at later places (`Scans.shift`).

## Main definitions

* `Span.shift`, `Token.shift`: a span or a token so many bytes later; what would lie beyond the
  limit of spans is recorded at the limit.
* `EndsInput`: tokens up to the end of a text, or up to a last line break.

## Main statements

* `Longest.before_lineFeed`: a line feed does not change what the longest word in front of it is.
* `Scans.join`: for texts that are both cut into tokens; nothing is said about errors.
* `Token.scan_join`: the same for whole texts.
-/

namespace Edict

open Rule

/-! ## Later places -/

/-- The span of the same characters where `k` more bytes stand before them. -/
def Span.shift (k : Nat) (s : Span) : Span := .ofRange (s.start + k) (s.stop + k)

/-- The same token where `k` more bytes stand before it. -/
def Token.shift (k : Nat) (t : Token) : Token := ⟨t.kind, t.span.shift k⟩

/-- A shifted span is the one of the shifted offsets, also at the limit. -/
theorem Span.shift_ofRange (k start stop : Nat) :
    (Span.ofRange start stop).shift k = .ofRange (start + k) (stop + k) := by
  have hmin : ∀ n, min (min n limit + k) limit = min (n + k) limit := by omega
  simp [shift, ofRange, hmin]

/-- As long as it is within the limit, a shifted span is just moved. -/
theorem Span.shift_of_le {k : Nat} {s : Span} (hstart : s.start + k ≤ limit)
    (hstop : s.stop + k ≤ limit) : s.shift k = ⟨s.start + k, s.stop + k⟩ :=
  ofRange_of_le hstart hstop

/-- A text is cut into the same tokens wherever it stands. -/
theorem Scans.shift {here : Nat} {cs : List Char} {r : Except ScanError (List Token)}
    (h : Scans here cs r) (k : Nat) {ts : List Token} (hr : r = .ok ts) :
    Scans (here + k) cs (.ok (ts.map (·.shift k))) := by
  induction h generalizing ts with
  | finish =>
      cases hr
      simpa [Token.shift, Span.shift_ofRange] using Scans.finish
  | blank hblank _ ih =>
      have hrest := ih hr
      rw [Nat.add_right_comm] at hrest
      exact .blank hblank hrest
  | word hlongest hpoint hk _ ih =>
      obtain ⟨more, rfl, rfl⟩ := exists_of_map_cons hr
      have hrest := ih rfl
      rw [Nat.add_right_comm] at hrest
      have hword := Scans.word hlongest hpoint hk hrest
      rw [List.map_cons, Token.shift, Span.shift_ofRange, Nat.add_right_comm]
      exact hword
  | @point here l kind w after r hlongest htakes hk _ ih =>
      obtain ⟨more, rfl, rfl⟩ := exists_of_map_cons hr
      have hend : here + utf8Length w + 1 + k = here + k + utf8Length w + 1 := by omega
      have hrest := ih rfl
      rw [hend] at hrest
      have hword := Scans.point hlongest htakes hk hrest
      rw [List.map_cons, Token.shift, Span.shift_ofRange, hend]
      exact hword
  | openText => cases hr
  | malformedNumber => cases hr
  | unexpectedChar => cases hr

/-! ## Words and line feeds -/

/-- A number is made of digits, a minus sign and points. -/
theorem Word.mem_number {l : Lexeme} {w : List Char} (h : Word .number l w) :
    ∀ c ∈ w, c.isDigit = true ∨ c ∈ ['-', '.'] := by
  have hsign : ∀ m ∈ [[], ['-']], ∀ c ∈ m, c.isDigit = true ∨ c ∈ ['-', '.'] := by simp
  cases h with
  | whole hm hds =>
      intro c hc
      rcases List.mem_append.mp hc with hc | hc
      · exact hsign _ hm c hc
      · exact .inl (hds.isDigit c hc)
  | fraction hm hds hfs =>
      intro c hc
      simp only [List.mem_append, List.mem_cons] at hc
      rcases hc with hc | hc | rfl | hc
      · exact hsign _ hm c hc
      · exact .inl (hds.isDigit c hc)
      · exact .inr (by decide)
      · exact .inl (hfs.isDigit c hc)
  | manyPoints hm hds hfs htail =>
      intro c hc
      simp only [List.mem_append, List.mem_cons] at hc
      rcases hc with hc | hc | rfl | hc | rfl | hc
      · exact hsign _ hm c hc
      · exact .inl (hds.isDigit c hc)
      · exact .inr (by decide)
      · exact .inl (hfs c hc)
      · exact .inr (by decide)
      · refine (Bool.or_eq_true_iff.mp (htail c hc)).imp_right fun hpoint => ?_
        rw [beq_iff_eq.mp hpoint]
        decide

/-- Line feeds and carriage returns are in line breaks and in texts only. -/
theorem Word.front_of_break {f : Front} {l : Lexeme} {w : List Char} (h : Word f l w) {c : Char}
    (hw : c ∈ w) (hc : Front.lineBreak.has c = true) : f = .lineBreak ∨ f = .quote := by
  have hbreak : c = '\r' ∨ c = '\n' := by simpa [Front.has] using hc
  cases f with
  | sign =>
      have hsigns : ∀ p ∈ signs, '\r' ∉ p.2 ∧ '\n' ∉ p.2 := by decide
      cases h with
      | sign hmem =>
          obtain ⟨hreturn, hfeed⟩ := hsigns _ hmem
          rcases hbreak with rfl | rfl
          · exact absurd hw hreturn
          · exact absurd hw hfeed
  | lineBreak => exact .inl rfl
  | number =>
      have hno : ∀ c ∈ ['\r', '\n'], ¬ (c.isDigit = true ∨ c ∈ ['-', '.']) :=
        List.forall_mem_cons.mpr ⟨by decide, List.forall_mem_singleton.mpr (by decide)⟩
      exact absurd (h.mem_number _ hw) (hno c (by simpa using hbreak))
  | quote => exact .inr rfl
  | letter =>
      have hno : ∀ c ∈ ['\r', '\n'], startsName c = false ∧ Rule.continuesName c = false :=
        List.forall_mem_cons.mpr ⟨by decide, List.forall_mem_singleton.mpr (by decide)⟩
      obtain ⟨hstarts, hcontinues⟩ := hno c (by simpa using hbreak)
      obtain ⟨d, cs, rfl, hd⟩ := h.begins
      rcases List.mem_cons.mp hw with rfl | hw
      · exact absurd hd (by simp [Front.has, hstarts])
      · exact absurd (h.continuesName _ hw) (by simp [hcontinues])

/-- The line breaks. -/
theorem Word.mem_lineBreak {l : Lexeme} {w : List Char} (h : Word .lineBreak l w) :
    w ∈ [['\r', '\n'], ['\n'], ['\r']] := by
  cases h with
  | lineBreak hw => exact hw

/-- A line feed is a line break, also with a carriage return before it. -/
theorem Longest.ofLineFeed {w : List Char} (hw : w ∈ [['\n'], ['\r', '\n']]) (rest : List Char) :
    Longest (.fixed .newline) w rest := by
  have hbreak : w ∈ [['\r', '\n'], ['\n'], ['\r']] := by
    have hall : ∀ w ∈ [['\n'], ['\r', '\n']], w ∈ [['\r', '\n'], ['\n'], ['\r']] := by decide
    exact hall w hw
  constructor
  · exact (Word.lineBreak hbreak).accepts
  · intro l' v hv h
    obtain ⟨f, hword⟩ := accepts_iff_word.mp h
    obtain ⟨c, v, rfl⟩ := List.exists_cons_of_ne_nil hword.ne_nil
    simp only [List.mem_cons, List.not_mem_nil, or_false] at hw
    rcases hw with rfl | rfl
    · obtain ⟨rfl, -⟩ := List.cons_prefix_cons.mp hv
      obtain rfl : f = .lineBreak := hword.front_eq rfl (by decide)
      have hbreak := hword.mem_lineBreak
      simp at hbreak
      simp [hbreak]
    · obtain ⟨rfl, -⟩ := List.cons_prefix_cons.mp hv
      obtain rfl : f = .lineBreak := hword.front_eq rfl (by decide)
      have hbreak := hword.mem_lineBreak
      simp at hbreak
      rcases hbreak with rfl | rfl <;> simp
  · exact fun l' _ _ => rfl

/-- The word that is taken does not depend on what follows behind a character that no word but a
text would go on with. -/
theorem Longest.append_cons {l : Lexeme} {w rest : List Char} {k : TokenKind} {c : Char}
    (h : Longest l w rest) (hk : l.Becomes w k)
    (hc : ∀ f l' more, Word f l' (w ++ rest ++ c :: more) → f = .quote) (cs : List Char) :
    Longest l w (rest ++ c :: cs) := by
  obtain ⟨f, hword⟩ := accepts_iff_word.mp h.accepts
  by_cases hquote : f = .quote
  · subst hquote
    cases hword with
    | closed hq hbody => exact .ofText hq hbody
    | opened => cases hk
  · refine ⟨h.accepts, fun l' v hv haccepts => ?_, h.fixed⟩
    rw [← List.append_assoc] at hv
    by_cases hle : v.length ≤ (w ++ rest).length
    · exact h.longest l' v
        (List.prefix_of_prefix_length_le hv (List.prefix_append _ _) hle) haccepts
    · -- a longer word would have the character in it
      exfalso
      obtain ⟨more, rfl⟩ : w ++ rest <+: v :=
        List.prefix_of_prefix_length_le (List.prefix_append _ _) hv (by omega)
      obtain ⟨g, hword'⟩ := accepts_iff_word.mp haccepts
      rcases more with _ | ⟨d, more⟩
      · simp at hle
      · obtain ⟨rfl, -⟩ := List.cons_prefix_cons.mp ((List.prefix_append_right_inj _).mp hv)
        obtain rfl := hc g l' more hword'
        obtain ⟨c, w, rfl⟩ := List.exists_cons_of_ne_nil h.ne_nil
        obtain ⟨d, ds, heq, hd⟩ := hword'.begins
        cases heq
        refine hquote (hword.front_eq hd ?_)
        rintro rfl
        cases hd

/-- The word that is taken does not depend on what follows behind a line feed, unless it is a
carriage return right in front of it. -/
theorem Longest.before_lineFeed {l : Lexeme} {w rest : List Char} {k : TokenKind}
    (h : Longest l w rest) (hk : l.Becomes w k) (hreturn : w = ['\r'] → rest ≠ [])
    (cs : List Char) : Longest l w (rest ++ '\n' :: cs) := by
  refine h.append_cons hk (fun f l' more hword => ?_) cs
  refine (hword.front_of_break (List.mem_append_right _ List.mem_cons_self) rfl).resolve_left ?_
  rintro rfl
  have hbreak := hword.mem_lineBreak
  obtain ⟨c, w, rfl⟩ := List.exists_cons_of_ne_nil h.ne_nil
  simp at hbreak
  obtain ⟨rfl, htail⟩ := hbreak
  have hlength := congrArg List.length htail
  simp at hlength
  obtain rfl : w = [] := List.eq_nil_of_length_eq_zero (by omega)
  obtain rfl : rest = [] := List.eq_nil_of_length_eq_zero (by omega)
  exact hreturn rfl rfl

/-! ## The seam -/

/-- Tokens with the end of the input behind them, up to line breaks in front of it. -/
def EndsInput (init ts : List Token) : Prop :=
  ∃ nl e, ts = init ++ (nl ++ [⟨.eof, e⟩]) ∧ (∀ t ∈ nl, t.kind.isNewline = true) ∧
    ∀ t ∈ init, t.kind ≠ .eof

/-- One more token in front. -/
theorem EndsInput.cons {init ts : List Token} {t : Token} (h : EndsInput init ts)
    (ht : t.kind ≠ .eof) : EndsInput (t :: init) (t :: ts) := by
  obtain ⟨nl, e, rfl, hnl, hinit⟩ := h
  exact ⟨nl, e, rfl, hnl, List.forall_mem_cons.mpr ⟨ht, hinit⟩⟩

/-- A line feed in front, also with a carriage return before it. -/
theorem Scans.lineFeed {here there : Nat} {w ds : List Char} {us : List Token}
    (hw : w ∈ [['\n'], ['\r', '\n']]) (hthere : there = here + utf8Length w)
    (h : Scans there ds (.ok us)) :
    Scans here (w ++ ds) (.ok (⟨.newline, .ofRange here there⟩ :: us)) := by
  subst hthere
  exact .word (.ofLineFeed hw ds) (fun _ _ htakes => nomatch htakes.number) .fixed h

/-- A carriage return alone becomes a line break. -/
theorem Longest.eq_newline {l : Lexeme} {k : TokenKind} {rest : List Char}
    (h : Longest l ['\r'] rest) (hk : l.Becomes ['\r'] k) : k = .newline := by
  obtain ⟨f, hword⟩ := accepts_iff_word.mp h.accepts
  obtain rfl : f = .lineBreak := hword.front_eq rfl (by decide)
  cases hword with
  | lineBreak => cases hk with
    | fixed => rfl

/-- A point that belongs to a number does so with more text behind what follows it, if that begins
with neither a digit nor a point. -/
theorem TakesPoint.append_cons {l : Lexeme} {w after : List Char} {c : Char} (h : TakesPoint l w after)
    (hc : c.isDigit = false ∧ c ≠ '.') (ds : List Char) : TakesPoint l w (after ++ c :: ds) := by
  refine ⟨h.number, h.whole, ?_⟩
  rcases after with _ | ⟨d, after⟩
  · simpa using hc
  · exact h.next

/-- If it belongs to the number with more text, it does so without. -/
theorem TakesPoint.of_append {l : Lexeme} {w after ds : List Char}
    (h : TakesPoint l w (after ++ ds)) : TakesPoint l w after := by
  refine ⟨h.number, h.whole, ?_⟩
  rcases after with _ | ⟨c, after⟩
  · exact nofun
  · exact h.next

/-- A line feed and another text behind a text that is cut into tokens. -/
theorem Scans.join {here there : Nat} {cs ds : List Char} {r : Except ScanError (List Token)}
    {ts us : List Token} (h : Scans here cs r) (hr : r = .ok ts)
    (hthere : there = here + utf8Length cs + 1) (k : Scans there ds (.ok us)) :
    ∃ init s, EndsInput init ts ∧
      Scans here (cs ++ '\n' :: ds) (.ok (init ++ ⟨.newline, s⟩ :: us)) := by
  induction h generalizing ts with
  | @finish here =>
      cases hr
      have hscans : Scans here (['\n'] ++ ds) _ := k.lineFeed (by decide) hthere
      exact ⟨[], _, ⟨[], _, rfl, List.forall_mem_nil _, List.forall_mem_nil _⟩, hscans⟩
  | @blank here c cs r hblank _ ih =>
      obtain ⟨init, s, hends, hscans⟩ := ih hr (by rw [hthere, utf8Length_cons]; omega)
      exact ⟨init, s, hends, .blank hblank hscans⟩
  | @word here l kind w rest r hlongest hpoint hk hrest ih =>
      obtain ⟨more, rfl, rfl⟩ := exists_of_map_cons hr
      by_cases hreturn : w = ['\r'] ∧ rest = []
      · -- the carriage return and the line feed are one line break
        obtain ⟨rfl, rfl⟩ := hreturn
        obtain rfl : kind = .newline := hlongest.eq_newline hk
        have hmore := hrest.scanFrom_eq
        rw [Token.scanFrom] at hmore
        cases hmore
        have hscans : Scans here (['\r', '\n'] ++ ds) _ := k.lineFeed (by decide) hthere
        exact ⟨[], _, ⟨[_], _, rfl, List.forall_mem_singleton.mpr rfl, List.forall_mem_nil _⟩, hscans⟩
      · obtain ⟨init, s, hends, hscans⟩ := ih rfl (by rw [hthere, utf8Length_append]; omega)
        refine ⟨_ :: init, s, hends.cons (hlongest.ne_eof hk), ?_⟩
        rw [List.append_assoc]
        refine .word (hlongest.before_lineFeed hk (fun hw hnil => hreturn ⟨hw, hnil⟩) ds) ?_ hk hscans
        rintro after heq htakes
        rcases rest with _ | ⟨c, rest⟩
        · cases heq
        · obtain ⟨rfl, rfl⟩ := List.cons_eq_cons.mp heq
          exact hpoint rest rfl htakes.of_append
  | @point here l kind w after r hlongest htakes hk _ ih =>
      obtain ⟨more, rfl, rfl⟩ := exists_of_map_cons hr
      have hpoint : Char.utf8Size '.' = 1 := rfl
      obtain ⟨init, s, hends, hscans⟩ := ih rfl (by
        rw [hthere, utf8Length_append, utf8Length_cons, hpoint]
        omega)
      refine ⟨_ :: init, s, hends.cons (hlongest.ne_eof hk), ?_⟩
      rw [List.append_assoc]
      exact .point (hlongest.before_lineFeed hk (fun _ => List.cons_ne_nil _ _) ds)
        (htakes.append_cons (by decide) ds) hk hscans
  | openText => cases hr
  | malformedNumber => cases hr
  | unexpectedChar => cases hr

/-- The tokens of a text end with the end of the input. -/
theorem Scans.endsInput {here : Nat} {cs : List Char} {r : Except ScanError (List Token)}
    {ts : List Token} (h : Scans here cs r) (hr : r = .ok ts) : ∃ init, EndsInput init ts := by
  induction h generalizing ts with
  | finish =>
      cases hr
      exact ⟨[], [], _, rfl, List.forall_mem_nil _, List.forall_mem_nil _⟩
  | blank _ _ ih => exact ih hr
  | word hlongest _ hk _ ih | point hlongest _ hk _ ih =>
      obtain ⟨more, rfl, rfl⟩ := exists_of_map_cons hr
      obtain ⟨init, hinit⟩ := ih rfl
      exact ⟨_, hinit.cons (hlongest.ne_eof hk)⟩
  | openText => cases hr
  | malformedNumber => cases hr
  | unexpectedChar => cases hr

/-- The tokens of a text are just moved as long as the text ends within the limit. -/
theorem Token.span_shift_of_scan {source : String} {ts : List Token} {t : Token} {k : Nat}
    (hs : scan source = .ok ts) (ht : t ∈ ts) (hk : source.utf8ByteSize + k ≤ Span.limit) :
    t.span.shift k = ⟨t.span.start + k, t.span.stop + k⟩ := by
  have hlimit : utf8Length source.toList + k ≤ Span.limit := by
    rw [← utf8ByteSize_eq]
    exact hk
  have hlayout : Layout [] source.toList ts :=
    (scanFrom_eq_iff.mp hs).layout rfl (by rw [List.nil_append]; omega) rfl
  obtain ⟨-, hle, hstop⟩ := hlayout.bounds t ht
  rw [List.nil_append] at hstop
  exact Span.shift_of_le (by omega) (by omega)

/-- The tokens of two texts with a line feed between them: those of the first one, with a line break
for the end of the input and the line breaks in front of it, and those of the second one. -/
theorem Token.scan_join {s₁ s₂ : String} {ts us : List Token} (hs : scan s₁ = .ok ts)
    (hs' : scan s₂ = .ok us) :
    ∃ init s, EndsInput init ts ∧ scan (s₁ ++ "\n" ++ s₂) =
      .ok (init ++ ⟨.newline, s⟩ :: us.map (·.shift (s₁.utf8ByteSize + 1))) := by
  have hscans : Scans 0 s₁.toList _ := scanFrom_eq_iff.mp hs
  have hscans' : Scans 0 s₂.toList _ := scanFrom_eq_iff.mp hs'
  have hmoved := hscans'.shift (s₁.utf8ByteSize + 1) rfl
  obtain ⟨init, s, hends, hjoin⟩ := hscans.join rfl (by rw [utf8ByteSize_eq, Nat.add_assoc]) hmoved
  refine ⟨init, s, hends, ?_⟩
  have htext : (s₁ ++ "\n" ++ s₂).toList = s₁.toList ++ '\n' :: s₂.toList := by simp
  rw [scan, htext]
  exact hjoin.scanFrom_eq

end Edict

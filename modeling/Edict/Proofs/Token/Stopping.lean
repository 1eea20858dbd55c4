import Edict.Proofs.Token.Joining

/-!
# Where a scan stops

Before a scan fails it takes some words, and what it takes does not depend on where it fails: the
text up to that place, cut off there, has the same tokens (`Takes.scans`).  `Scans.takes` says that
every scan is of this kind, with words taken one after the other up to the end of the text or up to
a place that the error is about (`Stops`).

Offsets are in bytes.  `slice?` is the part of a text between two offsets; it does not exist if an
offset lies outside the text or inside a character.  All parts of a text that a scan looks up by
their spans exist (`Takes.sliced`).

## Main definitions

* `slice?`: the part of a text that a span stands for.
* `Takes`: the scan takes words off the front of a text and leaves a rest.
* `Stops`: what stands where a scan fails, for each error.

## Main statements

* `Scans.takes`: what every scan takes, and how it ends.
* `Takes.scans`: the text in front of the rest has the same tokens on its own.
* `Takes.sliced`: all slices exist, as long as the text is within the limit of spans.
-/

namespace Edict

open Rule

/-! ## Parts of a text by their offsets -/

/-- What stands behind the first `n` bytes, if these are whole characters. -/
def dropBytes? : Nat → List Char → Option (List Char)
  | 0, cs => some cs
  | _ + 1, [] => none
  | n + 1, c :: cs => if c.utf8Size ≤ n + 1 then dropBytes? (n + 1 - c.utf8Size) cs else none

/-- The first `n` bytes, if these are whole characters. -/
def takeBytes? : Nat → List Char → Option (List Char)
  | 0, _ => some []
  | _ + 1, [] => none
  | n + 1, c :: cs =>
      if c.utf8Size ≤ n + 1 then (takeBytes? (n + 1 - c.utf8Size) cs).map (c :: ·) else none

/-- The part of a text that a span is about, if the span lies in the text and cuts no character. -/
def slice? (cs : List Char) (s : Span) : Option (List Char) :=
  if s.start ≤ s.stop then (dropBytes? s.start cs).bind (takeBytes? (s.stop - s.start)) else none

/-- What stands behind some characters stands behind their bytes, and behind no other ones. -/
theorem dropBytes?_eq_some {n : Nat} {cs ds : List Char} :
    dropBytes? n cs = some ds ↔ ∃ before, cs = before ++ ds ∧ utf8Length before = n := by
  constructor
  · intro h
    fun_induction dropBytes? n cs with
    | case1 cs =>
        cases h
        exact ⟨[], rfl, rfl⟩
    | case2 => cases h
    | case3 n c cs hsize ih =>
        obtain ⟨before, rfl, hlength⟩ := ih h
        refine ⟨c :: before, rfl, ?_⟩
        rw [utf8Length_cons, hlength]
        omega
    | case4 => cases h
  · rintro ⟨before, rfl, rfl⟩
    induction before with
    | nil => simp [dropBytes?]
    | cons c before ih =>
        have hpos := c.utf8Size_pos
        obtain ⟨m, hm⟩ : ∃ m, c.utf8Size + utf8Length before = m + 1 :=
          ⟨c.utf8Size + utf8Length before - 1, by omega⟩
        have hrest : m + 1 - c.utf8Size = utf8Length before := by omega
        rw [utf8Length_cons, hm, List.cons_append, dropBytes?, if_pos (by omega), hrest, ih]

/-- Some characters are found by their bytes, and no other ones are. -/
theorem takeBytes?_eq_some {n : Nat} {cs ds : List Char} :
    takeBytes? n cs = some ds ↔ ∃ after, cs = ds ++ after ∧ utf8Length ds = n := by
  constructor
  · intro h
    fun_induction takeBytes? n cs generalizing ds with
    | case1 cs =>
        cases h
        exact ⟨cs, rfl, rfl⟩
    | case2 => cases h
    | case3 n c cs hsize ih =>
        obtain ⟨ds, hds, rfl⟩ := Option.map_eq_some_iff.mp h
        obtain ⟨after, rfl, hlength⟩ := ih hds
        refine ⟨after, rfl, ?_⟩
        rw [utf8Length_cons, hlength]
        omega
    | case4 => cases h
  · rintro ⟨after, rfl, rfl⟩
    induction ds with
    | nil => simp [takeBytes?]
    | cons c ds ih =>
        have hpos := c.utf8Size_pos
        obtain ⟨m, hm⟩ : ∃ m, c.utf8Size + utf8Length ds = m + 1 :=
          ⟨c.utf8Size + utf8Length ds - 1, by omega⟩
        have hrest : m + 1 - c.utf8Size = utf8Length ds := by omega
        rw [utf8Length_cons, hm, List.cons_append, takeBytes?, if_pos (by omega), hrest, ih]
        rfl

/-- The part of a text that a span is about stands between the characters before the one offset and
those behind the other one. -/
theorem slice?_eq_some {cs w : List Char} {s : Span} :
    slice? cs s = some w ↔ ∃ before after, cs = before ++ (w ++ after) ∧
      s = ⟨utf8Length before, utf8Length (before ++ w)⟩ := by
  obtain ⟨start, stop⟩ := s
  unfold slice?
  constructor
  · intro h
    split at h
    · rename_i hle
      obtain ⟨behind, hdrop, htake⟩ := Option.bind_eq_some_iff.mp h
      obtain ⟨before, rfl, hstart⟩ := dropBytes?_eq_some.mp hdrop
      obtain ⟨after, rfl, hlength⟩ := takeBytes?_eq_some.mp htake
      refine ⟨before, after, rfl, ?_⟩
      dsimp only at hle hstart hlength
      rw [utf8Length_append, hstart, hlength, Nat.add_sub_cancel' hle]
    · cases h
  · rintro ⟨before, after, rfl, heq⟩
    obtain ⟨rfl, rfl⟩ := Span.mk.inj heq
    have hlength : utf8Length before + utf8Length w - utf8Length before = utf8Length w := by omega
    dsimp only
    rw [utf8Length_append, if_pos (Nat.le_add_right _ _), hlength]
    exact Option.bind_eq_some_iff.mpr
      ⟨w ++ after, dropBytes?_eq_some.mpr ⟨before, rfl, rfl⟩, takeBytes?_eq_some.mpr ⟨after, rfl, rfl⟩⟩

/-- The text has a part where the token stands, and if this is a quoted text, that has a part
between its quotes, which is what the token carries. -/
def Token.Sliced (cs : List Char) (t : Token) : Prop :=
  ∃ w, slice? cs t.span = some w ∧
    ∀ s, t.kind = .text s → slice? w ⟨1, utf8Length w - 1⟩ = some s.toList

/-! ## Words at the front of a text -/

/-- The offset behind a word, a point and what follows them. -/
theorem offset_point (here : Nat) (w before : List Char) :
    here + utf8Length (w ++ '.' :: before) = here + utf8Length w + 1 + utf8Length before := by
  rw [utf8Length_append, utf8Length_cons, show Char.utf8Size '.' = 1 from rfl]
  omega

/-- The words of `before`, taken off the text `before ++ rest`, which begins at byte `here`: at
every place that is no blank the longest word of the whole text. -/
inductive Takes : Nat → List Char → List Char → List Token → Prop
  | stop {here : Nat} {rest : List Char} : Takes here [] rest []
  | blank {here : Nat} {c : Char} {before rest : List Char} {ts : List Token} :
      isBlank c = true → Takes (here + c.utf8Size) before rest ts → Takes here (c :: before) rest ts
  | word {here : Nat} {l : Lexeme} {k : TokenKind} {w before rest : List Char} {ts : List Token} :
      Longest l w (before ++ rest) →
      (∀ after, before ++ rest = '.' :: after → ¬ TakesPoint l w after) → l.Becomes w k →
      Takes (here + utf8Length w) before rest ts →
      Takes here (w ++ before) rest (⟨k, Span.ofRange here (here + utf8Length w)⟩ :: ts)
  | point {here : Nat} {l : Lexeme} {k : TokenKind} {w before rest : List Char} {ts : List Token} :
      Longest l w ('.' :: (before ++ rest)) → TakesPoint l w (before ++ rest) → l.Becomes w k →
      Takes (here + utf8Length w + 1) before rest ts →
      Takes here (w ++ '.' :: before) rest
        (⟨k, Span.ofRange here (here + utf8Length w + 1)⟩ :: ts)

/-- The word `w` in front of the text, which begins at byte `here`, is what the error is about. -/
structure Stops (here : Nat) (w : List Char) (e : ScanError) : Prop where
  span_eq : e.span = Span.ofRange here (here + utf8Length w)
  front : ∃ c cs, w = c :: cs ∧ isBlank c = false
  char : ∀ c span, e = .unexpectedChar c span → w = [c]

/-- A scan takes words up to the end of the text, or up to a place where it stops. -/
theorem Scans.takes {here : Nat} {cs : List Char} {r : Except ScanError (List Token)}
    (h : Scans here cs r) :
    (∃ ts, Takes here cs [] ts ∧
      r = .ok (ts ++ [⟨.eof, Span.ofRange (here + utf8Length cs) (here + utf8Length cs)⟩])) ∨
    ∃ before w after ts e, cs = before ++ (w ++ after) ∧ Takes here before (w ++ after) ts ∧
      r = .error e ∧ Stops (here + utf8Length before) w e := by
  induction h with
  | finish => exact .inl ⟨[], .stop, rfl⟩
  | @blank here c cs r hblank _ ih =>
      rcases ih with ⟨ts, htakes, rfl⟩ | ⟨before, w, after, ts, e, rfl, htakes, rfl, hstops⟩
      · refine .inl ⟨ts, .blank hblank htakes, ?_⟩
        rw [utf8Length_cons, Nat.add_assoc]
      · refine .inr ⟨c :: before, w, after, ts, e, rfl, .blank hblank htakes, rfl, ?_⟩
        rwa [utf8Length_cons, ← Nat.add_assoc]
  | @word here l k w rest r hlongest hpoint hk _ ih =>
      rcases ih with ⟨ts, htakes, rfl⟩ | ⟨before, v, after, ts, e, rfl, htakes, rfl, hstops⟩
      · refine .inl ⟨_, .word (by rwa [List.append_nil]) (by rwa [List.append_nil]) hk htakes, ?_⟩
        rw [utf8Length_append, ← Nat.add_assoc]
        rfl
      · refine .inr ⟨w ++ before, v, after, _, e, by simp, .word hlongest hpoint hk htakes, rfl, ?_⟩
        rwa [utf8Length_append, ← Nat.add_assoc]
  | @point here l k w after r hlongest hpoint hk _ ih =>
      rcases ih with ⟨ts, htakes, rfl⟩ | ⟨before, v, after, ts, e, rfl, htakes, rfl, hstops⟩
      · refine .inl ⟨_, .point (by rwa [List.append_nil]) (by rwa [List.append_nil]) hk htakes, ?_⟩
        rw [offset_point]
        rfl
      · refine .inr ⟨w ++ '.' :: before, v, after, _, e, by simp, .point hlongest hpoint hk htakes,
          rfl, ?_⟩
        rwa [offset_point]
  | openText hlongest =>
      exact .inr ⟨[], _, _, [], _, rfl, .stop, rfl, rfl, hlongest.exists_cons, nofun⟩
  | malformedNumber hlongest =>
      exact .inr ⟨[], _, _, [], _, rfl, .stop, rfl, rfl, hlongest.exists_cons, nofun⟩
  | @unexpectedChar here c cs hblank =>
      refine .inr ⟨[], [c], cs, [], _, rfl, .stop, rfl, rfl, ⟨c, [], rfl, hblank⟩, ?_⟩
      rintro _ _ ⟨⟩
      rfl

/-! ## Cutting a text where the scan stops -/

/-- What is the longest word in front of a text is so in front of its beginning. -/
theorem Longest.of_append {l : Lexeme} {w rest after : List Char} (h : Longest l w (rest ++ after)) :
    Longest l w rest := by
  refine ⟨h.accepts, fun l' v hv haccepts => h.longest l' v ?_ haccepts, h.fixed⟩
  rw [← List.append_assoc]
  exact hv.trans (List.prefix_append _ _)

/-- A point right behind an integer that is the longest word belongs to it. -/
theorem Longest.takesPoint {w after : List Char} (h : Longest .number w ('.' :: after))
    (hwhole : '.' ∉ w) : TakesPoint .number w after := by
  refine ⟨rfl, hwhole, fun c hc => ?_⟩
  obtain ⟨after, rfl⟩ : ∃ more, after = c :: more := by
    rcases after with _ | ⟨d, more⟩
    · cases hc
    · cases hc
      exact ⟨more, rfl⟩
  -- a digit or a second point would make the word longer
  have hlonger : ∀ l', ¬ Accepts l' (w ++ ['.', c]) := by
    intro l' haccepts
    have hle := h.longest l' (w ++ ['.', c]) ⟨after, by simp⟩ haccepts
    have hlength : (w ++ ['.', c]).length = w.length + 2 := by simp
    omega
  obtain ⟨f, hword⟩ := accepts_iff_word.mp h.accepts
  cases hword with
  | @whole m ds hm hds =>
      constructor
      · refine Bool.eq_false_iff.mpr fun hdigit => hlonger .number ?_
        have hfraction : Word .number .number (m ++ (ds ++ '.' :: [c])) :=
          .fraction hm hds ⟨List.cons_ne_nil _ _, List.forall_mem_singleton.mpr hdigit⟩
        simpa using hfraction.accepts
      · rintro rfl
        refine hlonger .malformedNumber ?_
        have hpoints : Word .number .malformedNumber (m ++ (ds ++ '.' :: ([] ++ '.' :: []))) :=
          .manyPoints hm hds (List.forall_mem_nil _) (List.forall_mem_nil _)
        simpa using hpoints.accepts
  | fraction => simp at hwhole

/-- Quotes take one byte. -/
theorem utf8Size_of_quote {q : Char} (hq : q ∈ ['"', '\'']) : q.utf8Size = 1 := by
  simp only [List.mem_cons, List.not_mem_nil, or_false] at hq
  rcases hq with rfl | rfl <;> rfl

/-- Whether the token is made of a general shape: a text, a number or a name. -/
def TokenKind.isGeneral : TokenKind → Bool
  | .text _ | .number _ | .ident _ => true
  | _ => false

/-- No fixed word becomes a text, a number or a name. -/
theorem Word.not_isGeneral {f : Front} {k : TokenKind} {w : List Char} (h : Word f (.fixed k) w) :
    k.isGeneral = false := by
  have hall : ∀ p ∈ signs ++ Rule.reserved, p.1.isGeneral = false := by decide
  cases h with
  | sign hmem => exact hall _ (List.mem_append_left _ hmem)
  | reserved hmem => exact hall _ (List.mem_append_right _ hmem)
  | lineBreak _ => rfl

/-- Texts are between quotes. -/
theorem Word.quote_mem {f : Front} {q : Char} {w : List Char} (h : Word f .quotedText (q :: w)) :
    q ∈ ['"', '\''] := by
  generalize hw : q :: w = v at h
  cases h with
  | closed hq =>
      obtain ⟨rfl, -⟩ := List.cons_eq_cons.mp hw
      exact hq

/-- A word that becomes a text has the characters of the text between its first and its last
byte. -/
theorem Longest.slice_text {l : Lexeme} {w rest : List Char} {s : String} (h : Longest l w rest)
    (hs : l.Becomes w (.text s)) : slice? w ⟨1, utf8Length w - 1⟩ = some s.toList := by
  obtain ⟨f, hword⟩ := accepts_iff_word.mp h.accepts
  generalize hk : TokenKind.text s = k at hs
  cases hs with
  | fixed =>
      subst hk
      cases hword.not_isGeneral
  | number => cases hk
  | name => cases hk
  | @text q body =>
      cases hk
      have hone := utf8Size_of_quote hword.quote_mem
      refine slice?_eq_some.mpr ⟨[q], [q], by simp, ?_⟩
      simp [hone, Nat.add_comm]

namespace Takes

variable {here : Nat} {before rest past : List Char} {ts : List Token}

/-- The words in front of a place are all words of the text that is cut off there. -/
theorem scans (h : Takes here before rest ts) :
    Scans here before
      (.ok (ts ++ [⟨.eof, Span.ofRange (here + utf8Length before) (here + utf8Length before)⟩])) := by
  induction h with
  | stop => exact .finish
  | blank hblank _ ih =>
      rw [utf8Length_cons, ← Nat.add_assoc]
      exact .blank hblank ih
  | @word here l k w before rest ts hlongest hpoint hk _ ih =>
      rw [utf8Length_append, ← Nat.add_assoc]
      refine .word hlongest.of_append ?_ hk ih
      rintro after rfl ⟨rfl, hwhole, -⟩
      exact hpoint _ rfl (hlongest.takesPoint hwhole)
  | @point here l k w before rest ts hlongest hpoint hk _ ih =>
      rw [offset_point]
      have hbefore : Longest l w ('.' :: before) := Longest.of_append hlongest
      exact .point hbefore hpoint.of_append hk ih

/-- The parts of the text that belong to the tokens exist. -/
theorem sliced (h : Takes here before rest ts) (hhere : here = utf8Length past)
    (hlimit : utf8Length (past ++ before) ≤ Span.limit) :
    ∀ t ∈ ts, Token.Sliced (past ++ (before ++ rest)) t := by
  induction h generalizing past with
  | stop => exact List.forall_mem_nil _
  | @blank here c before rest ts hblank _ ih =>
      have hrest : ∀ t ∈ ts, Token.Sliced (past ++ [c] ++ (before ++ rest)) t :=
        ih (by simp [hhere]) (by simpa using hlimit)
      simpa using hrest
  | @word here l k w before rest ts hlongest _ hk _ ih =>
      have hrest : ∀ t ∈ ts, Token.Sliced (past ++ w ++ (before ++ rest)) t :=
        ih (by simp [hhere]) (by simpa using hlimit)
      refine List.forall_mem_cons.mpr ⟨⟨w, ?_, ?_⟩, by simpa using hrest⟩
      · refine slice?_eq_some.mpr ⟨past, before ++ rest, by simp, ?_⟩
        simp at hlimit
        rw [hhere, ← utf8Length_append]
        exact Span.ofRange_of_le (by omega) (by simp; omega)
      · rintro s rfl
        exact hlongest.slice_text hk
  | @point here l k w before rest ts hlongest hpoint hk _ ih =>
      have hone : Char.utf8Size '.' = 1 := rfl
      have hrest : ∀ t ∈ ts, Token.Sliced (past ++ (w ++ ['.']) ++ (before ++ rest)) t :=
        ih (by simp [hhere, hone, Nat.add_assoc]) (by simpa using hlimit)
      refine List.forall_mem_cons.mpr ⟨⟨w ++ ['.'], ?_, ?_⟩, by simpa using hrest⟩
      · refine slice?_eq_some.mpr ⟨past, before ++ rest, by simp, ?_⟩
        simp [hone] at hlimit
        have hstop : here + utf8Length w + 1 = utf8Length (past ++ (w ++ ['.'])) := by
          simp [hhere, hone, Nat.add_assoc]
        rw [hstop, hhere]
        exact Span.ofRange_of_le (by omega) (by simp [hone]; omega)
      · rintro s rfl
        obtain ⟨rfl, -, -⟩ := hpoint
        cases hk

end Takes

end Edict

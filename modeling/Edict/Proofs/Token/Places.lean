import Edict.Proofs.Token.Restyling
import Edict.Proofs.Token.Stopping
import Mathlib.Algebra.GroupWithZero.Nat
import Mathlib.Data.List.DropRight

/-!
# Lines and columns of tokens

A location is found by walking over the characters of a text, with a look at the next one; tokens
are found by taking longest words.  The two agree on what a line break is, and on a short enough
text they agree on all lines and columns.

## Main definitions

* `lineBreaks`, `lastLine`: how often a text breaks the line, and what is behind its last break.
* `Location.Exact`: a line and a column that are counted without a bound.  A location is an exact
  one with each of its two numbers in 32 bits (`Location.Exact.wrap`).
* `Token.Placed`: what is asked of the place of a token in its text.

## Main statements

* `Location.ofOffset_eq`: which line and column a place has, in terms of the text before it only.
  The place must not split a carriage return from its line feed; the text may have any size.
* `Scans.placed`: no token begins at such a place, and the text before a token breaks the line as
  often as the tokens in it do.
* `Token.location_of_scan`: the lines and columns of tokens, and that locations grow over the places
  of a text.  This is for texts of fewer than `2 ^ 32 - 1` bytes.
* `Token.location_of_blanks`: a text of `2 ^ 32 - 1` bytes has room for a column that 32 bits do not
  hold.  The column of its end wraps around to zero.
-/

namespace Edict

open Rule

/-! ## Line breaks of a text -/

/-- Whether the character is in a line break. -/
def breaksLine (c : Char) : Bool := c == '\n' || c == '\r'

/-- How many line breaks a text has: line feeds, carriage returns, and the two together, which are
one. -/
def lineBreaks : List Char → Nat
  | '\r' :: '\n' :: cs => 1 + lineBreaks cs
  | '\n' :: cs => 1 + lineBreaks cs
  | '\r' :: cs => 1 + lineBreaks cs
  | _ :: cs => lineBreaks cs
  | [] => 0

/-- The characters of a text behind its last line break. -/
def lastLine (cs : List Char) : List Char := cs.rtakeWhile (!breaksLine ·)

/-- Whether a carriage return is at the end of the first text and its line feed at the front of the
second one. -/
def SplitsBreak (cs rest : List Char) : Prop := cs.getLast? = some '\r' ∧ rest.head? = some '\n'

/-- The line breaks inside a token that is a text. -/
def TokenKind.innerBreaks : TokenKind → Nat
  | .text s => lineBreaks s.toList
  | _ => 0

/-- A break that is split at the end of a text is so with more in front. -/
theorem SplitsBreak.cons {c : Char} {cs rest : List Char} (h : SplitsBreak cs rest) :
    SplitsBreak (c :: cs) rest := by
  obtain ⟨hlast, hhead⟩ := h
  exact ⟨by rw [List.getLast?_cons, hlast]; rfl, hhead⟩

/-- A break that is split behind some characters is split whatever is in front of them. -/
theorem splitsBreak_append {cs ds rest : List Char} (hds : ds ≠ []) :
    SplitsBreak (cs ++ ds) rest ↔ SplitsBreak ds rest := by
  simp [SplitsBreak, List.getLast?_append_of_ne_nil _ hds]

/-- Where the characters of a text break no line, there is no line break. -/
theorem lineBreaks_eq_zero {cs : List Char} (h : ∀ c ∈ cs, breaksLine c = false) :
    lineBreaks cs = 0 := by
  fun_induction lineBreaks cs with
  | case1 | case2 | case3 => exact absurd (h _ List.mem_cons_self) (by decide)
  | case4 c cs _ _ _ ih => exact ih fun d hd => h d (List.mem_cons_of_mem _ hd)
  | case5 => rfl

/-! ## Exact locations -/

namespace Location

/-- A line and a column that are counted without a bound. -/
structure Exact where
  line : Nat
  column : Nat

namespace Exact

/-- The location of an exact one: its line and its column in 32 bits each. -/
def wrap (p : Exact) : Location := ⟨.ofNat p.line, .ofNat p.column⟩

/-- The exact location of the first character of a text. -/
def first : Exact := ⟨1, 1⟩

/-- The exact location behind a character, in front of `rest`. -/
def after (p : Exact) (c : Char) (rest : List Char) : Exact :=
  if c = '\r' ∧ rest.head? = some '\n' then p
  else if c = '\n' ∨ c = '\r' then ⟨p.line + 1, 1⟩
  else ⟨p.line, p.column + 1⟩

/-- The exact location behind the characters `cs`, where `rest` follows them. -/
def along (p : Exact) (rest : List Char) : List Char → Exact
  | [] => p
  | c :: cs => (p.after c (cs ++ rest)).along rest cs

variable {p q r : Exact} {c : Char} {rest : List Char}

/-- A character moves a location as it moves the exact one. -/
theorem wrap_after (p : Exact) (c : Char) (rest : List Char) :
    p.wrap.after c rest = (p.after c rest).wrap := by
  unfold Location.after after
  split
  · rfl
  · split <;> simp [wrap]

/-- The walk to the end of some characters goes over just these. -/
theorem walk_eq (p : Exact) (here : Nat) (cs rest : List Char) :
    walk (here + utf8Length cs) p.wrap here (cs ++ rest) = (p.along rest cs).wrap := by
  induction cs generalizing p here with
  | nil =>
      cases rest with
      | nil => rfl
      | cons c rest => exact if_pos (Nat.le_refl _)
  | cons c cs ih =>
      have hsize := c.utf8Size_pos
      have hlater : ¬ here + utf8Length (c :: cs) ≤ here := by
        rw [utf8Length_cons]
        omega
      rw [List.cons_append, walk, if_neg hlater, wrap_after, utf8Length_cons, ← Nat.add_assoc, ih]
      rfl

/-! ### Walking over some characters -/

/-- A carriage return leaves the break to the line feed behind it. -/
theorem after_return (h : c = '\r' ∧ rest.head? = some '\n') : p.after c rest = p := if_pos h

/-- Any other character of a line break begins a line. -/
theorem after_break (hc : breaksLine c = true) (h : ¬ (c = '\r' ∧ rest.head? = some '\n')) :
    p.after c rest = ⟨p.line + 1, 1⟩ := by
  have hline : c = '\n' ∨ c = '\r' := by simpa [breaksLine] using hc
  rw [after, if_neg h, if_pos hline]

/-- Any other character is one more on its line. -/
theorem after_other (hc : breaksLine c = false) : p.after c rest = ⟨p.line, p.column + 1⟩ := by
  have hsame : ¬ (c = '\n' ∨ c = '\r') := by simpa [breaksLine] using hc
  rw [after, if_neg fun h => hsame (.inr h.1), if_neg hsame]

/-- Two runs of characters are walked over one after the other. -/
theorem along_append (p : Exact) (cs ds rest : List Char) :
    p.along rest (cs ++ ds) = (p.along (ds ++ rest) cs).along rest ds := by
  induction cs generalizing p with
  | nil => rfl
  | cons c cs ih => rw [List.cons_append, along, along, ih, List.append_assoc]

/-- The line behind some characters: one more for each of their line breaks. -/
theorem line_along {cs : List Char} (h : ¬ SplitsBreak cs rest) :
    (p.along rest cs).line = p.line + lineBreaks cs := by
  fun_induction lineBreaks cs generalizing p with
  | case1 cs ih =>
      rw [along, along, after_return ⟨rfl, rfl⟩, after_break rfl (by simp), ih fun hcs => h hcs.cons.cons,
        Nat.add_assoc]
  | case2 cs ih =>
      rw [along, after_break rfl (by simp), ih fun hcs => h hcs.cons, Nat.add_assoc]
  | case3 cs halone ih =>
      have hnext : (cs ++ rest).head? ≠ some '\n' := by
        rcases cs with _ | ⟨d, cs⟩
        · exact fun hhead => h ⟨rfl, hhead⟩
        · exact fun hhead => halone cs (by rw [Option.some.inj hhead])
      rw [along, after_break rfl fun hfeed => hnext hfeed.2, ih fun hcs => h hcs.cons, Nat.add_assoc]
  | case4 c cs _ hfeed hreturn ih =>
      have hother : breaksLine c = false := by
        simp only [breaksLine, Bool.or_eq_false_iff, beq_eq_false_iff_ne]
        exact ⟨hfeed, hreturn⟩
      rw [along, after_other hother, ih fun hcs => h hcs.cons]
  | case5 => rfl

/-- The column behind the characters that a text begins with: one more than there are behind their
last line break. -/
theorem column_along {cs : List Char} (h : ¬ SplitsBreak cs rest) :
    (first.along rest cs).column = 1 + (lastLine cs).length := by
  induction cs using List.reverseRecOn generalizing rest with
  | nil => rfl
  | append_singleton cs c ih =>
      rw [along_append, along, along, lastLine, List.rtakeWhile_concat]
      by_cases hbreak : breaksLine c = true
      · have hwhole : ¬ (c = '\r' ∧ rest.head? = some '\n') := by
          rintro ⟨rfl, hhead⟩
          exact h ⟨by simp, hhead⟩
        rw [List.nil_append, after_break hbreak hwhole, hbreak]
        rfl
      · have hother : breaksLine c = false := Bool.eq_false_iff.mpr hbreak
        have hbefore : ¬ SplitsBreak cs ([c] ++ rest) := by
          rintro ⟨-, hhead⟩
          obtain rfl : c = '\n' := Option.some.inj hhead
          exact absurd hother (by decide)
        rw [after_other hother, ih hbefore, hother]
        simp [lastLine, Nat.add_assoc]

/-! ### Exact locations grow -/

/-- Earlier in reading order: on a line before, or on the same line in a column before. -/
def Before (p q : Exact) : Prop := p.line < q.line ∨ p.line = q.line ∧ p.column < q.column

/-- What is earlier than something earlier is earlier. -/
theorem Before.trans (h : p.Before q) (k : q.Before r) : p.Before r := by
  unfold Before at *
  omega

/-- A character moves the location on, but for a carriage return that leaves the break to its line
feed. -/
theorem before_after (h : ¬ (c = '\r' ∧ rest.head? = some '\n')) :
    p.Before (p.after c rest) := by
  rw [after, if_neg h]
  split
  · exact .inl (Nat.lt_succ_self _)
  · exact .inr ⟨rfl, Nat.lt_succ_self _⟩

/-- So do characters in a row, unless they are just such a carriage return. -/
theorem before_along {cs : List Char} (hcs : cs ≠ [])
    (h : ¬ (cs = ['\r'] ∧ rest.head? = some '\n')) : p.Before (p.along rest cs) := by
  induction cs generalizing p with
  | nil => exact absurd rfl hcs
  | cons c cs ih =>
      by_cases hnil : cs = []
      · subst hnil
        exact before_after fun ⟨hc, hhead⟩ => h ⟨by rw [hc], hhead⟩
      · by_cases hreturn : c = '\r' ∧ (cs ++ rest).head? = some '\n'
        · -- the first character stays, so the second one is the line feed
          have hmore : ¬ (cs = ['\r'] ∧ rest.head? = some '\n') := by
            rintro ⟨rfl, -⟩
            cases hreturn.2
          rw [along, after_return hreturn]
          exact ih hnil hmore
        · have hfirst : p.Before (p.after c (cs ++ rest)) := before_after hreturn
          by_cases hlast : cs = ['\r'] ∧ rest.head? = some '\n'
          · -- the last character stays, so the first one moved on
            obtain ⟨rfl, hhead⟩ := hlast
            have hstays : p.along rest [c, '\r'] = p.after c (['\r'] ++ rest) := by
              rw [along, along]
              exact after_return ⟨rfl, hhead⟩
            rwa [hstays]
          · exact hfirst.trans (ih hnil hlast)

/-! ### The size of exact locations -/

/-- Neither the line nor the column is beyond the bound. -/
def Within (p : Exact) (n : Nat) : Prop := p.line ≤ n ∧ p.column ≤ n

/-- Each character adds at most one to either. -/
theorem within_along {n : Nat} (h : p.Within n) (hn : 1 ≤ n) (cs rest : List Char) :
    (p.along rest cs).Within (n + utf8Length cs) := by
  induction cs generalizing p n with
  | nil => exact h
  | cons c cs ih =>
      have hsize := c.utf8Size_pos
      have hafter : (p.after c (cs ++ rest)).Within (n + c.utf8Size) := by
        obtain ⟨hline, hcolumn⟩ := h
        unfold after Within
        split
        · exact ⟨Nat.le_add_right_of_le hline, Nat.le_add_right_of_le hcolumn⟩
        · split
          · exact ⟨Nat.add_le_add hline hsize, Nat.le_add_right_of_le hn⟩
          · exact ⟨Nat.le_add_right_of_le hline, Nat.add_le_add hcolumn hsize⟩
      rw [utf8Length_cons, ← Nat.add_assoc]
      exact ih hafter (by omega)

/-- The line and the column of a location, where 32 bits hold them. -/
theorem toNat_wrap (h : p.Within Span.limit) :
    p.wrap.line.toNat = p.line ∧ p.wrap.column.toNat = p.column :=
  ⟨UInt32.toNat_ofNat_of_lt' (Nat.lt_succ_of_le h.1),
    UInt32.toNat_ofNat_of_lt' (Nat.lt_succ_of_le h.2)⟩

end Exact

/-! ## Locations in a text -/

/-- Earlier in reading order: on a line before, or on the same line in a column before. -/
def Before (l m : Location) : Prop := l.line < m.line ∨ l.line = m.line ∧ l.column < m.column

/-- Of exact locations that fit into 32 bits the earlier one has the earlier location. -/
theorem Exact.Before.wrap {p q : Exact} (h : p.Before q) (hp : p.Within Span.limit)
    (hq : q.Within Span.limit) : p.wrap.Before q.wrap := by
  obtain ⟨hpline, hpcolumn⟩ := toNat_wrap hp
  obtain ⟨hqline, hqcolumn⟩ := toNat_wrap hq
  unfold Location.Before
  rw [UInt32.lt_iff_toNat_lt, UInt32.lt_iff_toNat_lt, ← UInt32.toNat_inj, hpline, hqline, hpcolumn,
    hqcolumn]
  exact h

variable {source : String} {before rest : List Char}

/-- The location of a place in a text is found by walking over the text before it. -/
theorem ofOffset_along (htext : source.toList = before ++ rest) :
    ofOffset source (utf8Length before) = (Exact.first.along rest before).wrap := by
  have hwalk := Exact.walk_eq Exact.first 0 before rest
  rw [Nat.zero_add] at hwalk
  rw [ofOffset, htext]
  exact hwalk

/-- The location of a place in a text, but between a carriage return and its line feed: the line
counts the line breaks before the place, the column the characters since the last one. -/
theorem ofOffset_eq (htext : source.toList = before ++ rest) (h : ¬ SplitsBreak before rest) :
    ofOffset source (utf8Length before) =
      Exact.wrap ⟨1 + lineBreaks before, 1 + (lastLine before).length⟩ := by
  have hline : (Exact.first.along rest before).line = 1 + lineBreaks before := Exact.line_along h
  rw [ofOffset_along htext, ← Exact.column_along h, ← hline]

/-- In a text of fewer than `2 ^ 32 - 1` bytes, 32 bits hold the line and the column of every
place. -/
theorem within_of_size (htext : source.toList = before ++ rest)
    (hsize : source.utf8ByteSize < Span.limit) :
    (Exact.first.along rest before).Within Span.limit := by
  rw [utf8ByteSize_eq, htext, utf8Length_append] at hsize
  obtain ⟨hline, hcolumn⟩ :=
    Exact.within_along (p := Exact.first) ⟨Nat.le_refl 1, Nat.le_refl 1⟩ (Nat.le_refl 1) before rest
  exact ⟨by omega, by omega⟩

end Location

/-! ## Line breaks of tokens -/

/-- A character of no line break adds none. -/
theorem lineBreaks_cons {c : Char} {cs : List Char} (hc : breaksLine c = false) :
    lineBreaks (c :: cs) = lineBreaks cs := by
  have hfeed : c ≠ '\n' := by
    rintro rfl
    cases hc
  have hreturn : c ≠ '\r' := by
    rintro rfl
    cases hc
  rw [lineBreaks]
  · exact fun _ hr _ => hreturn hr
  · exact hfeed
  · exact hreturn

/-- The line breaks of two texts in a row are those of both, as long as none is split. -/
theorem lineBreaks_append {cs ds : List Char} (h : ¬ SplitsBreak cs ds) :
    lineBreaks (cs ++ ds) = lineBreaks cs + lineBreaks ds := by
  have hnone : ∀ cs : List Char, ¬ SplitsBreak cs [] := fun _ hsplits => nomatch hsplits.2
  have hwalk := congrArg Location.Exact.line (Location.Exact.along_append ⟨0, 1⟩ cs ds [])
  rw [Location.Exact.line_along (hnone _), Location.Exact.line_along (hnone _), List.append_nil,
    Location.Exact.line_along h] at hwalk
  simpa using hwalk

/-- A quoted text has the line breaks that are between its quotes. -/
theorem lineBreaks_quoted {q : Char} {body : List Char} (hq : q ∈ ['"', '\'']) :
    lineBreaks (q :: (body ++ [q])) = lineBreaks body := by
  have hquotes : ∀ q ∈ ['"', '\''], breaksLine q = false ∧ q ≠ '\n' :=
    List.forall_mem_cons.mpr ⟨by decide, List.forall_mem_singleton.mpr (by decide)⟩
  obtain ⟨hother, hfeed⟩ := hquotes q hq
  have hbody : ¬ SplitsBreak body [q] := fun hsplits => hfeed (Option.some.inj hsplits.2)
  rw [lineBreaks_cons hother, lineBreaks_append hbody, lineBreaks_cons hother]
  rfl

/-- Words other than line breaks and texts break no line. -/
theorem Word.lineBreaks_eq_zero {f : Front} {l : Lexeme} {w rest : List Char} (h : Word f l w)
    (hbreak : f ≠ .lineBreak) (hquote : f ≠ .quote) :
    lineBreaks w = 0 ∧ ¬ SplitsBreak w rest := by
  have hnone : ∀ c ∈ w, breaksLine c = false := by
    refine fun c hc => Bool.eq_false_iff.mpr fun hbreaks => ?_
    have hhas : Front.lineBreak.has c = true := by
      rw [← hbreaks]
      exact Bool.or_comm _ _
    exact (h.front_of_break hc hhas).elim hbreak hquote
  refine ⟨Edict.lineBreaks_eq_zero hnone, fun ⟨hlast, _⟩ => ?_⟩
  cases hnone _ (List.mem_of_getLast? hlast)

/-- A word has the line breaks that its token has, and does not end inside a line break. -/
theorem Longest.breaks {l : Lexeme} {k : TokenKind} {w rest : List Char} (h : Longest l w rest)
    (hk : l.Becomes w k) :
    lineBreaks w = (if k.isNewline then 1 else 0) + k.innerBreaks ∧ ¬ SplitsBreak w rest := by
  obtain ⟨f, hword⟩ := accepts_iff_word.mp h.accepts
  have hfixed : ∀ p ∈ signs ++ Rule.reserved, (if p.1.isNewline then 1 else 0) + p.1.innerBreaks = 0 := by
    decide
  cases hk with
  | fixed =>
      cases hword with
      | sign hmem =>
          rw [hfixed _ (List.mem_append_left _ hmem)]
          exact (Word.sign hmem).lineBreaks_eq_zero nofun nofun
      | reserved hmem =>
          have hnone := hfixed _ (List.mem_append_right _ hmem)
          dsimp only at hnone
          rw [hnone]
          exact (Word.reserved hmem).lineBreaks_eq_zero nofun nofun
      | lineBreak hw =>
          simp only [List.mem_cons, List.not_mem_nil, or_false] at hw
          rcases hw with rfl | rfl | rfl
          · exact ⟨rfl, fun ⟨hlast, _⟩ => absurd hlast (by decide)⟩
          · exact ⟨rfl, fun ⟨hlast, _⟩ => absurd hlast (by decide)⟩
          · exact ⟨rfl, fun ⟨_, hhead⟩ => h.head_of_return hhead⟩
  | number =>
      cases hword with
      | whole hm hds => exact (Word.whole hm hds).lineBreaks_eq_zero nofun nofun
      | fraction hm hds hfs => exact (Word.fraction hm hds hfs).lineBreaks_eq_zero nofun nofun
  | name =>
      cases hword with
      | name hc hcs => exact (Word.name hc hcs).lineBreaks_eq_zero nofun nofun
  | @text q body =>
      have hquote := hword.quote_mem
      refine ⟨?_, fun ⟨hlast, _⟩ => ?_⟩
      · rw [lineBreaks_quoted hquote]
        simp [TokenKind.isNewline, TokenKind.innerBreaks]
      · rw [List.getLast?_cons, List.getLast?_append_of_ne_nil _ (List.cons_ne_nil _ _)] at hlast
        cases hlast
        revert hquote
        decide

/-! ## The tokens of a text -/

/-- A span that begins within the limit begins where it is said to. -/
theorem Span.start_ofRange {start stop : Nat} (h : start ≤ limit) :
    (ofRange start stop).start = start :=
  Nat.min_eq_left h

/-- The line breaks of some tokens: the tokens that are line breaks, and the line breaks inside of
texts. -/
def Token.breaks (ts : List Token) : Nat :=
  ts.countP (·.kind.isNewline) + (ts.map (·.kind.innerBreaks)).sum

/-- One more token. -/
theorem Token.breaks_cons (t : Token) (ts : List Token) :
    Token.breaks (t :: ts) =
      ((if t.kind.isNewline then 1 else 0) + t.kind.innerBreaks) + Token.breaks ts := by
  simp only [Token.breaks, List.countP_cons, List.map_cons, List.sum_cons]
  omega

/-- What is asked of the place of a token, where the text before `cs` is `past` and the tokens in
`cs` before this one are `front`: it splits no line break, and the text before it has the line
breaks of the tokens before it. -/
def Token.Placed (past cs : List Char) (front : List Token) (t : Token) : Prop :=
  ∃ mid rest, cs = mid ++ rest ∧ t.span.start = utf8Length (past ++ mid) ∧
    ¬ SplitsBreak (past ++ mid) rest ∧
    lineBreaks (past ++ mid) = lineBreaks past + Token.breaks front

namespace Token.Placed

variable {past cs w rest : List Char} {front back ts : List Token} {s t : Token}

/-- The first token, right behind the text before it. -/
theorem first (hpast : ¬ SplitsBreak past cs) (hs : s.span.start = utf8Length past) :
    Placed past cs [] s := by
  refine ⟨[], cs, rfl, ?_⟩
  rw [List.append_nil]
  exact ⟨hs, hpast, rfl⟩

/-- Places behind some characters that have the line breaks of some tokens. -/
theorem behind {before : List Token} (hpast : ¬ SplitsBreak past (w ++ rest))
    (hbreaks : lineBreaks w = Token.breaks before) (h : Placed (past ++ w) rest front t) :
    Placed past (w ++ rest) (before ++ front) t := by
  obtain ⟨mid, rest, rfl, hstart, hsplits, hmore⟩ := h
  have hfirst : ¬ SplitsBreak past w := by
    rintro ⟨hlast, hhead⟩
    exact hpast ⟨hlast, by rw [List.head?_append, hhead]; rfl⟩
  rw [List.append_assoc] at hstart hsplits hmore
  refine ⟨w ++ mid, rest, by simp, hstart, hsplits, ?_⟩
  rw [hmore, lineBreaks_append hfirst, hbreaks]
  simp only [Token.breaks, List.countP_append, List.map_append, List.sum_append]
  omega

/-- The token of a word has its place in front of the word, the tokens behind the word have
theirs. -/
theorem word (hpast : ¬ SplitsBreak past (w ++ rest)) (hs : s.span.start = utf8Length past)
    (hbreaks : lineBreaks w = (if s.kind.isNewline then 1 else 0) + s.kind.innerBreaks)
    (hsplit : s :: ts = front ++ t :: back)
    (h : ∀ front, ts = front ++ t :: back → Placed (past ++ w) rest front t) :
    Placed past (w ++ rest) front t := by
  rcases front with _ | ⟨r, front⟩
  · obtain ⟨rfl, -⟩ := List.cons_eq_cons.mp hsplit
    exact first hpast hs
  · obtain ⟨rfl, hts⟩ := List.cons_eq_cons.mp hsplit
    have hone : lineBreaks w = Token.breaks [s] := by
      rw [hbreaks, Token.breaks_cons]
      rfl
    exact behind hpast hone (h front hts)

end Token.Placed

/-- Every token of a text has its place so, behind a text that ends with no half line break. -/
theorem Scans.placed {here : Nat} {cs : List Char} {r : Except ScanError (List Token)}
    (h : Scans here cs r) {past : List Char} {front back : List Token} {t : Token}
    (hhere : here = utf8Length past) (hlimit : utf8Length (past ++ cs) ≤ Span.limit)
    (hpast : ¬ SplitsBreak past cs) (hr : r = .ok (front ++ t :: back)) :
    Token.Placed past cs front t := by
  induction h generalizing past front with
  | finish =>
      simp [List.singleton_eq_append_iff] at hr
      obtain ⟨rfl, rfl, -⟩ := hr
      subst hhere
      exact .first hpast (Span.start_ofRange (by simpa using hlimit))
  | @blank here c cs r hblank _ ih =>
      have hother : breaksLine c = false := by
        simp only [isBlank, Bool.or_eq_true, beq_iff_eq] at hblank
        rcases hblank with (rfl | rfl) | rfl <;> rfl
      have hnext : ¬ SplitsBreak (past ++ [c]) cs := by
        rw [splitsBreak_append (List.cons_ne_nil _ _)]
        rintro ⟨hlast, -⟩
        obtain rfl : c = '\r' := by simpa using hlast
        simp [breaksLine] at hother
      have hrest := ih (by simp [hhere]) (by simpa using hlimit) hnext hr
      have hbehind : Token.Placed past ([c] ++ cs) ([] ++ front) t :=
        .behind hpast (lineBreaks_cons hother) hrest
      exact hbehind
  | @word here l k w rest r hlongest _ hk _ ih =>
      obtain ⟨more, rfl, hts⟩ := exists_of_map_cons hr
      obtain ⟨hbreaks, hsplits⟩ := hlongest.breaks hk
      have hnext : ¬ SplitsBreak (past ++ w) rest := by
        rwa [splitsBreak_append hlongest.ne_nil]
      have hle : here ≤ Span.limit := by
        rw [utf8Length_append] at hlimit
        omega
      refine .word hpast ?_ hbreaks hts.symm fun front hfront => ?_
      · rw [← hhere]
        exact Span.start_ofRange hle
      · exact ih (by simp [hhere]) (by simpa using hlimit) hnext (by rw [hfront])
  | @point here l k w after r hlongest _ hk _ ih =>
      obtain ⟨more, rfl, hts⟩ := exists_of_map_cons hr
      obtain ⟨hbreaks, -⟩ := hlongest.breaks hk
      have hwhole : w ++ '.' :: after = (w ++ ['.']) ++ after := by simp
      have hsize : Char.utf8Size '.' = 1 := rfl
      have hword : ¬ SplitsBreak w ['.'] := by simp [SplitsBreak]
      have hnext : ¬ SplitsBreak (past ++ (w ++ ['.'])) after := by simp [SplitsBreak]
      have hle : here ≤ Span.limit := by
        rw [utf8Length_append] at hlimit
        omega
      rw [hwhole] at hpast hlimit ⊢
      refine .word hpast ?_ ?_ hts.symm fun front hfront => ?_
      · rw [← hhere]
        exact Span.start_ofRange hle
      · rw [lineBreaks_append hword, hbreaks]
        rfl
      · exact ih (by simp [hhere, hsize, Nat.add_assoc]) (by simpa using hlimit) hnext (by rw [hfront])
  | openText => simp at hr
  | malformedNumber => simp at hr
  | unexpectedChar => simp at hr

/-! ## The places of a text -/

/-- The lines and columns of a text of fewer than `2 ^ 32 - 1` bytes.  The line of a token counts
the line breaks among the tokens before it and inside the texts among them, and its column the
characters since the last line break.  And of two places the later one has the later location,
except that the place between a carriage return and its line feed has the location of the place
before both. -/
theorem Token.location_of_scan {source : String} (hsize : source.utf8ByteSize < Span.limit) :
    (∀ ts, scan source = .ok ts → ∀ front t back, ts = front ++ t :: back →
      ∃ before rest, source.toList = before ++ rest ∧ t.span.start = utf8Length before ∧
        ¬ SplitsBreak before rest ∧
        (Location.ofOffset source t.span.start).line.toNat =
          1 + front.countP (·.kind.isNewline) + (front.map (·.kind.innerBreaks)).sum ∧
        (Location.ofOffset source t.span.start).column.toNat = 1 + (lastLine before).length) ∧
      ∀ before mid rest, source.toList = before ++ (mid ++ rest) → mid ≠ [] →
        (¬ (mid = ['\r'] ∧ rest.head? = some '\n') →
          (Location.ofOffset source (utf8Length before)).Before
            (.ofOffset source (utf8Length (before ++ mid)))) ∧
        (mid = ['\r'] ∧ rest.head? = some '\n' →
          Location.ofOffset source (utf8Length (before ++ mid)) =
            .ofOffset source (utf8Length before)) := by
  constructor
  · rintro ts hscan front t back rfl
    have hlimit : utf8Length ([] ++ source.toList) ≤ Span.limit := by
      rw [List.nil_append, ← utf8ByteSize_eq]
      exact Nat.le_of_lt hsize
    have hnone : ¬ SplitsBreak [] source.toList := by simp [SplitsBreak]
    obtain ⟨before, rest, htext, hstart, hsplits, hbreaks⟩ :=
      (scanFrom_eq_iff.mp hscan).placed rfl hlimit hnone rfl
    rw [List.nil_append] at hstart hsplits hbreaks
    refine ⟨before, rest, htext, hstart, hsplits, ?_⟩
    have hline : (Location.Exact.first.along rest before).line = 1 + lineBreaks before :=
      Location.Exact.line_along hsplits
    have hbefore : lineBreaks before = Token.breaks front := by simpa [lineBreaks] using hbreaks
    obtain ⟨hwrapline, hwrapcolumn⟩ :=
      Location.Exact.toNat_wrap (Location.within_of_size htext hsize)
    rw [hstart, Location.ofOffset_along htext, hwrapline, hwrapcolumn, hline, hbefore,
      Location.Exact.column_along hsplits, Token.breaks, Nat.add_assoc]
    exact ⟨rfl, rfl⟩
  · intro before mid rest htext hmid
    have hwhole : source.toList = (before ++ mid) ++ rest := by rw [htext, List.append_assoc]
    have hfront := Location.within_of_size htext hsize
    have hback := Location.within_of_size hwhole hsize
    rw [Location.ofOffset_along htext, Location.ofOffset_along hwhole,
      Location.Exact.along_append] at *
    constructor
    · exact fun h => (Location.Exact.before_along hmid h).wrap hfront hback
    · rintro ⟨rfl, hhead⟩
      exact congrArg Location.Exact.wrap (Location.Exact.after_return ⟨rfl, hhead⟩)

/-- A text of several bytes per character that goes on over a line break, then a line break of two
characters and a lone carriage return: the end of the input is on the fourth line.  The carriage
return in the text leaves the break to its line feed. -/
theorem Token.location_of_scan_lines :
    "t = 'é\r\n€' \r\n\t1.\rab".utf8ByteSize < Span.limit ∧
      scan "t = 'é\r\n€' \r\n\t1.\rab" =
        .ok ([⟨.ident "t", ⟨0, 1⟩⟩, ⟨.symbol .eq, ⟨2, 3⟩⟩, ⟨.text "é\r\n€", ⟨4, 13⟩⟩,
          ⟨.newline, ⟨14, 16⟩⟩, ⟨.number (.ofWritten false 1), ⟨17, 19⟩⟩, ⟨.newline, ⟨19, 20⟩⟩,
          ⟨.ident "ab", ⟨20, 22⟩⟩] ++ [⟨.eof, ⟨22, 22⟩⟩]) ∧
      (∃ before rest, "t = 'é\r\n€' \r\n\t1.\rab".toList = before ++ rest ∧
        22 = utf8Length before ∧ ¬ SplitsBreak before rest ∧
        (Location.ofOffset "t = 'é\r\n€' \r\n\t1.\rab" 22).line.toNat = 1 + 2 + 1 ∧
        (Location.ofOffset "t = 'é\r\n€' \r\n\t1.\rab" 22).column.toNat = 1 + (lastLine before).length) ∧
      (Location.ofOffset "t = 'é\r\n€' \r\n\t1.\rab" 7).Before (.ofOffset "t = 'é\r\n€' \r\n\t1.\rab" 9) ∧
      Location.ofOffset "t = 'é\r\n€' \r\n\t1.\rab" 8 = .ofOffset "t = 'é\r\n€' \r\n\t1.\rab" 7 := by
  have hscan : scan "t = 'é\r\n€' \r\n\t1.\rab" =
      .ok ([⟨.ident "t", ⟨0, 1⟩⟩, ⟨.symbol .eq, ⟨2, 3⟩⟩, ⟨.text "é\r\n€", ⟨4, 13⟩⟩,
        ⟨.newline, ⟨14, 16⟩⟩, ⟨.number (.ofWritten false 1), ⟨17, 19⟩⟩, ⟨.newline, ⟨19, 20⟩⟩,
        ⟨.ident "ab", ⟨20, 22⟩⟩] ++ [⟨.eof, ⟨22, 22⟩⟩]) := by
    decide +kernel
  have hsize : "t = 'é\r\n€' \r\n\t1.\rab".utf8ByteSize < Span.limit := by decide
  obtain ⟨htokens, hplaces⟩ := location_of_scan hsize
  have hbreak := hplaces "t = 'é".toList ['\r', '\n'] "€' \r\n\t1.\rab".toList rfl nofun
  have hreturn := hplaces "t = 'é".toList ['\r'] "\n€' \r\n\t1.\rab".toList rfl nofun
  exact ⟨hsize, hscan, htokens _ hscan _ _ _ rfl, hbreak.1 (by decide), hreturn.2 (by decide)⟩

/-! ## Beyond 32 bits -/

/-- Blanks are one byte each. -/
theorem utf8Length_blanks (n : Nat) : utf8Length (List.replicate n ' ') = n := by
  induction n with
  | zero => rfl
  | succ n ih =>
      rw [List.replicate_succ, utf8Length_cons, ih, Nat.add_comm]
      rfl

/-- Blanks are scanned as nothing. -/
theorem Scans.blanks (here n : Nat) :
    Scans here (List.replicate n ' ') (.ok [⟨.eof, Span.ofRange (here + n) (here + n)⟩]) := by
  induction n generalizing here with
  | zero => exact .finish
  | succ n ih =>
      rw [List.replicate_succ, Nat.add_comm n 1, ← Nat.add_assoc]
      exact .blank rfl (ih (here + 1))

section blanks

variable {k n : Nat}

/-- The location of a place in a text of blanks. -/
theorem Location.ofOffset_blanks (h : k ≤ n) :
    ofOffset (String.ofList (List.replicate n ' ')) k = Exact.wrap ⟨1, 1 + k⟩ := by
  have hother : ∀ c ∈ List.replicate k ' ', breaksLine c = false := by
    intro c hc
    rw [List.eq_of_mem_replicate hc]
    decide
  have hlast : lastLine (List.replicate k ' ') = List.replicate k ' ' :=
    List.rtakeWhile_eq_self_iff.mpr fun c hc => by rw [hother c hc]; rfl
  have hend : ¬ SplitsBreak (List.replicate k ' ') (List.replicate (n - k) ' ') := by
    rintro ⟨hreturn, -⟩
    cases hother _ (List.mem_of_getLast? hreturn)
  have htext : (String.ofList (List.replicate n ' ')).toList =
      List.replicate k ' ' ++ List.replicate (n - k) ' ' := by
    rw [String.toList_ofList, List.replicate_append_replicate, Nat.add_sub_cancel' h]
  have hoffset := ofOffset_eq htext hend
  rwa [utf8Length_blanks, lineBreaks_eq_zero hother, hlast, List.length_replicate] at hoffset

/-- A text of blanks has no token but its end, and that has as many characters before it on its line
as the text has bytes. -/
theorem Token.scan_blanks (h : n ≤ Span.limit) :
    (String.ofList (List.replicate n ' ')).utf8ByteSize = n ∧
      scan (String.ofList (List.replicate n ' ')) = .ok [⟨.eof, ⟨n, n⟩⟩] ∧
      (lastLine (String.ofList (List.replicate n ' ')).toList).length = n := by
  have hother : ∀ c ∈ List.replicate n ' ', (!breaksLine c) = true := by
    intro c hc
    rw [List.eq_of_mem_replicate hc]
    decide
  have hscan := (Scans.blanks 0 n).scanFrom_eq
  rw [Nat.zero_add, Span.ofRange_of_le h h] at hscan
  rw [utf8ByteSize_eq, scan, String.toList_ofList, utf8Length_blanks, lastLine,
    List.rtakeWhile_eq_self_iff.mpr hother, List.length_replicate]
  exact ⟨rfl, hscan, rfl⟩

end blanks

/-- Of `2 ^ 32 - 1` blanks the end has an offset that a span records, and `2 ^ 32 - 1` characters
before it on its line.  Its column is zero, and not `2 ^ 32`; and it is not behind the place before
it. -/
theorem Token.location_of_blanks :
    (String.ofList (List.replicate 4294967295 ' ')).utf8ByteSize < 2 ^ 32 ∧
      scan (String.ofList (List.replicate 4294967295 ' ')) =
        .ok [⟨.eof, ⟨4294967295, 4294967295⟩⟩] ∧
      (lastLine (String.ofList (List.replicate 4294967295 ' ')).toList).length = 4294967295 ∧
      Location.ofOffset (String.ofList (List.replicate 4294967295 ' ')) 4294967295 = ⟨1, 0⟩ ∧
      ¬ (Location.ofOffset (String.ofList (List.replicate 4294967295 ' ')) 4294967294).Before
        (.ofOffset (String.ofList (List.replicate 4294967295 ' ')) 4294967295) := by
  obtain ⟨hsize, hscan, hlast⟩ := @Token.scan_blanks 4294967295 (Nat.le_refl _)
  have hend := @Location.ofOffset_blanks 4294967295 4294967295 (Nat.le_refl _)
  have hbefore := @Location.ofOffset_blanks 4294967294 4294967295 (Nat.le_succ _)
  rw [hsize, hend, hbefore]
  exact ⟨by decide, hscan, hlast, by decide, by unfold Location.Before; decide⟩

end Edict

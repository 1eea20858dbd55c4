import Edict.Proofs.Token.Scanning
import Mathlib.Data.List.Chain

/-!
# Where tokens stand

A complete scan accounts for every character of its text.  `Layout` says how a text is laid out in
blanks and words, with the tokens at the places of the words, and `Scans.layout` shows that every
complete scan is laid out so.  From this one description follows what there is to know of the spans
(`Token.scan_wellPlaced`): they are not empty, they follow one another, they begin and end between
characters, and between them there are blanks only.

Spans record offsets up to `Span.limit`, so all of this is about texts that are no longer.

## Main definitions

* `Layout`: a text is blanks and words, with its tokens at the words.
* `WellPlaced`: everything that is said of the spans of a text's tokens.

## Main statements

* `Scans.layout`: every complete scan is laid out so.
* `Token.scan_wellPlaced`: the spans of a complete scan, for texts of at most `Span.limit` bytes.
-/

namespace Edict

open Rule

/-! ## Places in a text -/

/-- The bytes of a text are those of its characters. -/
theorem utf8ByteSize_eq (s : String) : s.utf8ByteSize = utf8Length s.toList := by
  have hlist : ∀ cs : List Char, (String.ofList cs).utf8ByteSize = utf8Length cs := by
    intro cs
    induction cs with
    | nil => rfl
    | cons c cs ih =>
        rw [String.ofList_cons, String.utf8ByteSize_append, String.utf8ByteSize_singleton, ih]
        rfl
  rw [← hlist, String.ofList_toList]

/-- Every character takes at least one byte. -/
theorem utf8Length_pos {cs : List Char} (h : cs ≠ []) : 0 < utf8Length cs := by
  obtain ⟨c, cs, rfl⟩ := List.exists_cons_of_ne_nil h
  have := c.utf8Size_pos
  rw [utf8Length_cons]
  omega

/-- Nothing but blanks. -/
def Blank (cs : List Char) : Prop := ∀ c ∈ cs, isBlank c = true

/-- A byte offset between two characters of the text, or at one of its ends. -/
def OnBoundary (cs : List Char) (n : Nat) : Prop :=
  ∃ before after, cs = before ++ after ∧ utf8Length before = n

/-- Nothing but blanks stands between the two offsets. -/
def BlankBetween (cs : List Char) (a b : Nat) : Prop :=
  ∃ before gap after, cs = before ++ (gap ++ after) ∧ Blank gap ∧ utf8Length before = a ∧
    utf8Length (before ++ gap) = b

/-- Whether the byte at the offset belongs to the token. -/
def Token.covers (t : Token) (n : Nat) : Bool := t.span.start ≤ n && n < t.span.stop

/-! ## How a text is laid out -/

/-- The text after `past` in blanks and words, with the tokens of the words at their places. -/
inductive Layout : List Char → List Char → List Token → Prop
  | finish {past gap : List Char} : Blank gap →
      Layout past gap [⟨.eof, ⟨utf8Length (past ++ gap), utf8Length (past ++ gap)⟩⟩]
  | word {past gap w rest : List Char} {k : TokenKind} {ts : List Token} :
      Blank gap → w ≠ [] → k ≠ .eof → Layout (past ++ gap ++ w) rest ts →
      Layout past (gap ++ (w ++ rest))
        (⟨k, ⟨utf8Length (past ++ gap), utf8Length (past ++ gap ++ w)⟩⟩ :: ts)

/-- A character of two texts in a row is in the first or in the second one. -/
theorem split_cons {xs ys before after : List Char} {c : Char}
    (h : xs ++ ys = before ++ c :: after) :
    (∃ more, xs = before ++ c :: more ∧ after = more ++ ys) ∨
      ∃ more, before = xs ++ more ∧ ys = more ++ c :: after := by
  rcases List.append_eq_append_iff.mp h with hsecond | ⟨_ | ⟨d, more⟩, hxs, hys⟩
  · exact .inr hsecond
  · exact .inr ⟨[], by simpa using hxs.symm, by simpa using hys.symm⟩
  · obtain ⟨rfl, rfl⟩ := List.cons_eq_cons.mp hys
    exact .inl ⟨more, hxs, rfl⟩

namespace Layout

variable {past cs : List Char} {ts : List Token}

/-- Blanks before the first word are part of the layout. -/
theorem blank {c : Char} (hc : isBlank c = true) (h : Layout (past ++ [c]) cs ts) :
    Layout past (c :: cs) ts := by
  generalize hpast : past ++ [c] = past' at h
  cases h with
  | finish hgap =>
      subst hpast
      have hblank : Blank (c :: cs) := List.forall_mem_cons.mpr ⟨hc, hgap⟩
      have hlayout : Layout past _ _ := .finish hblank
      simpa using hlayout
  | @word _ gap w rest k ts hgap hw hk hrest =>
      subst hpast
      have hblank : Blank (c :: gap) := List.forall_mem_cons.mpr ⟨hc, hgap⟩
      have hlayout : Layout past _ _ := .word hblank hw hk (by simpa using hrest)
      simpa using hlayout

/-- The last token, and only the last one, is the end of the input. -/
theorem eof (h : Layout past cs ts) :
    ∃ init, ts = init ++ [⟨.eof, ⟨utf8Length (past ++ cs), utf8Length (past ++ cs)⟩⟩] ∧
      ∀ t ∈ init, t.kind ≠ .eof ∧ t.span.start < t.span.stop := by
  induction h with
  | finish hgap => exact ⟨[], rfl, List.forall_mem_nil _⟩
  | @word past gap w rest k ts hgap hw hk _ ih =>
      obtain ⟨init, rfl, hinit⟩ := ih
      have hpos := utf8Length_pos hw
      refine ⟨⟨k, ⟨utf8Length (past ++ gap), utf8Length (past ++ gap ++ w)⟩⟩ :: init, by simp,
        List.forall_mem_cons.mpr ⟨⟨hk, ?_⟩, hinit⟩⟩
      rw [utf8Length_append (past ++ gap)]
      dsimp only
      omega

/-- The tokens stand after what is before them, inside the text. -/
theorem bounds (h : Layout past cs ts) :
    ∀ t ∈ ts, utf8Length past ≤ t.span.start ∧ t.span.start ≤ t.span.stop ∧
      t.span.stop ≤ utf8Length (past ++ cs) := by
  induction h with
  | finish hgap => simp
  | @word past gap w rest k ts hgap hw hk _ ih =>
      refine List.forall_mem_cons.mpr ⟨by simp, fun t ht => ?_⟩
      have := ih t ht
      simp at this ⊢
      omega

/-- The tokens follow one another. -/
theorem pairwise (h : Layout past cs ts) :
    ts.Pairwise fun s t => s.span.start < t.span.start ∧ s.span.stop ≤ t.span.start := by
  induction h with
  | finish hgap => exact List.pairwise_singleton _ _
  | @word past gap w rest k ts hgap hw hk hrest ih =>
      refine List.pairwise_cons.mpr ⟨fun t ht => ?_, ih⟩
      have hpos := utf8Length_pos hw
      have hstart := (hrest.bounds t ht).1
      rw [utf8Length_append (past ++ gap)] at hstart ⊢
      dsimp only
      omega

/-- The tokens begin and end between characters. -/
theorem onBoundary (h : Layout past cs ts) :
    ∀ t ∈ ts, OnBoundary (past ++ cs) t.span.start ∧ OnBoundary (past ++ cs) t.span.stop := by
  induction h with
  | @finish past gap hgap =>
      have hend : OnBoundary (past ++ gap) (utf8Length (past ++ gap)) :=
        ⟨past ++ gap, [], by simp, rfl⟩
      exact List.forall_mem_singleton.mpr ⟨hend, hend⟩
  | @word past gap w rest k ts hgap hw hk _ ih =>
      refine List.forall_mem_cons.mpr ⟨⟨?_, ?_⟩, fun t ht => ?_⟩
      · exact ⟨past ++ gap, w ++ rest, by simp, rfl⟩
      · exact ⟨past ++ gap ++ w, rest, by simp, rfl⟩
      · simpa using ih t ht

/-- Between the tokens there are blanks only. -/
theorem blankBetween (h : Layout past cs ts) (s : Span) (hs : s.stop = utf8Length past) :
    (s :: ts.map (·.span)).IsChain fun s t => BlankBetween (past ++ cs) s.stop t.start := by
  induction h generalizing s with
  | @finish past gap hgap =>
      refine List.isChain_cons_cons.mpr ⟨?_, List.isChain_singleton _⟩
      exact ⟨past, gap, [], by simp, hgap, hs.symm, rfl⟩
  | @word past gap w rest k ts hgap hw hk _ ih =>
      refine List.isChain_cons_cons.mpr ⟨?_, ?_⟩
      · exact ⟨past, gap, w ++ rest, rfl, hgap, hs.symm, rfl⟩
      · have htext : past ++ gap ++ w ++ rest = past ++ (gap ++ (w ++ rest)) := by simp
        have hrest := ih ⟨utf8Length (past ++ gap), utf8Length (past ++ gap ++ w)⟩ rfl
        rwa [htext] at hrest

/-- What stands before all tokens belongs to none of them. -/
theorem countP_before (h : Layout past cs ts) {n : Nat} (hn : n < utf8Length past) :
    ts.countP (·.covers n) = 0 := by
  refine List.countP_eq_zero.mpr fun t ht => ?_
  have := (h.bounds t ht).1
  simp [Token.covers]
  omega

/-- No character belongs to two tokens, and only blanks belong to none. -/
theorem countP (h : Layout past cs ts) {before after : List Char} {c : Char}
    (heq : cs = before ++ c :: after) :
    ts.countP (·.covers (utf8Length (past ++ before))) ≤ 1 ∧
      (isBlank c = false → ts.countP (·.covers (utf8Length (past ++ before))) = 1) := by
  have hsize := c.utf8Size_pos
  induction h generalizing before with
  | @finish past gap hgap =>
      subst heq
      rw [hgap c (by simp)]
      refine ⟨?_, nofun⟩
      exact List.countP_le_length
  | @word past gap w rest k ts hgap hw hk hrest ih =>
      rcases split_cons heq with ⟨more, rfl, -⟩ | ⟨front, rfl, hword⟩
      · -- among the blanks before the word
        rw [hgap c (by simp)]
        have hzero := hrest.countP_before (n := utf8Length (past ++ before)) (by simp; omega)
        rw [List.countP_cons, hzero]
        refine ⟨?_, nofun⟩
        split <;> omega
      · rcases split_cons hword with ⟨more, rfl, -⟩ | ⟨front, rfl, hbehind⟩
        · -- in the word
          have hzero := hrest.countP_before (n := utf8Length (past ++ (gap ++ front)))
            (by simp; omega)
          have hcovers : Token.covers ⟨k, ⟨utf8Length (past ++ gap),
              utf8Length (past ++ gap ++ (front ++ c :: more))⟩⟩
              (utf8Length (past ++ (gap ++ front))) = true := by
            simp [Token.covers]
            omega
          rw [List.countP_cons, hzero, if_pos hcovers]
          exact ⟨Nat.le_refl 1, fun _ => rfl⟩
        · -- behind the word
          have hcovers : ¬ Token.covers ⟨k, ⟨utf8Length (past ++ gap),
              utf8Length (past ++ gap ++ w)⟩⟩
              (utf8Length (past ++ (gap ++ (w ++ front)))) = true := by
            simp [Token.covers]
          rw [List.countP_cons, if_neg hcovers]
          have hcount := ih hbehind
          simpa using hcount

end Layout

/-! ## Every complete scan is laid out so -/

/-- No word becomes the end of the input. -/
theorem Longest.ne_eof {l : Lexeme} {k : TokenKind} {w rest : List Char} (h : Longest l w rest)
    (hk : l.Becomes w k) : k ≠ .eof := by
  have hsigns : ∀ p ∈ signs, p.1 ≠ .eof := by decide
  have hreserved : ∀ p ∈ reserved, p.1 ≠ .eof := by decide
  obtain ⟨f, hword⟩ := accepts_iff_word.mp h.accepts
  cases hk with
  | fixed =>
      cases hword with
      | sign hmem => exact hsigns _ hmem
      | lineBreak => exact nofun
      | reserved hmem => exact hreserved _ hmem
  | number => exact nofun
  | name => exact nofun
  | text => exact nofun

/-- A complete result with a token before it is one of what follows the token. -/
theorem exists_of_map_cons {t : Token} {r : Except ScanError (List Token)} {ts : List Token}
    (h : r.map (t :: ·) = .ok ts) : ∃ more, r = .ok more ∧ ts = t :: more := by
  rcases r with e | more
  · cases h
  · cases h
    exact ⟨more, rfl, rfl⟩

/-- A word right behind what comes before it. -/
theorem Layout.next {past w rest : List Char} {k : TokenKind} {ts : List Token} {span : Span}
    (hw : w ≠ []) (hk : k ≠ .eof) (hrest : Layout (past ++ w) rest ts)
    (hspan : span = ⟨utf8Length past, utf8Length (past ++ w)⟩) :
    Layout past (w ++ rest) (⟨k, span⟩ :: ts) := by
  have hblank : Blank [] := List.forall_mem_nil _
  have hlayout : Layout past _ _ := .word hblank hw hk (by simpa using hrest)
  rw [hspan]
  simpa using hlayout

/-- A text that is cut into tokens is laid out with them. -/
theorem Scans.layout {here : Nat} {cs : List Char} {r : Except ScanError (List Token)}
    (h : Scans here cs r) {past : List Char} {ts : List Token} (hhere : here = utf8Length past)
    (hlimit : utf8Length (past ++ cs) ≤ Span.limit) (hr : r = .ok ts) : Layout past cs ts := by
  induction h generalizing past ts with
  | finish =>
      cases hr
      subst hhere
      rw [List.append_nil] at hlimit
      have hlayout : Layout past [] _ := .finish (List.forall_mem_nil _)
      rw [Span.ofRange_of_le hlimit hlimit]
      simpa using hlayout
  | @blank here c cs r hblank _ ih =>
      have hnext : here + c.utf8Size = utf8Length (past ++ [c]) := by simp [hhere]
      exact .blank hblank (ih hnext (by simpa using hlimit) hr)
  | @word here l k w rest r hlongest _ hk _ ih =>
      obtain ⟨more, rfl, rfl⟩ := exists_of_map_cons hr
      have hnext : here + utf8Length w = utf8Length (past ++ w) := by simp [hhere]
      have hrest := ih hnext (by simpa using hlimit) rfl
      refine .next hlongest.ne_nil (hlongest.ne_eof hk) hrest ?_
      simp at hlimit
      rw [hnext, hhere]
      exact Span.ofRange_of_le (by omega) (by simp; omega)
  | @point here l k w after r hlongest _ hk _ ih =>
      obtain ⟨more, rfl, rfl⟩ := exists_of_map_cons hr
      have hpoint : Char.utf8Size '.' = 1 := rfl
      have hnext : here + utf8Length w + 1 = utf8Length (past ++ (w ++ ['.'])) := by
        simp [hhere, hpoint, Nat.add_assoc]
      have hrest := ih hnext (by simpa using hlimit) rfl
      have hlayout : Layout past ((w ++ ['.']) ++ after) _ :=
        .next (by simp) (hlongest.ne_eof hk) hrest rfl
      simp [hpoint] at hlimit
      rw [hnext, hhere, Span.ofRange_of_le (by omega) (by simp [hpoint]; omega)]
      simpa using hlayout
  | openText => cases hr
  | malformedNumber => cases hr
  | unexpectedChar => cases hr

/-- What there is to know of the places of the tokens of a text. -/
structure WellPlaced (source : String) (ts : List Token) : Prop where
  /-- The end of the input is the last token, at the end of the text, and no other one; the others
  are not empty. -/
  eof : ∃ init, ts = init ++ [⟨.eof, ⟨source.utf8ByteSize, source.utf8ByteSize⟩⟩] ∧
    ∀ t ∈ init, t.kind ≠ .eof ∧ t.span.start < t.span.stop
  /-- The tokens follow one another. -/
  ordered : ts.Pairwise fun s t => s.span.start < t.span.start ∧ s.span.stop ≤ t.span.start
  /-- They lie inside the text. -/
  inside : ∀ t ∈ ts, t.span.start ≤ t.span.stop ∧ t.span.stop ≤ source.utf8ByteSize
  /-- They begin and end between characters. -/
  boundaries : ∀ t ∈ ts,
    OnBoundary source.toList t.span.start ∧ OnBoundary source.toList t.span.stop
  /-- Before the first one, and between two of them, there are blanks only. -/
  gaps : (⟨0, 0⟩ :: ts.map (·.span)).IsChain fun s t => BlankBetween source.toList s.stop t.start
  /-- No character belongs to two tokens, and only blanks belong to none. -/
  once : ∀ before c after, source.toList = before ++ c :: after →
    ts.countP (·.covers (utf8Length before)) ≤ 1 ∧
      (isBlank c = false → ts.countP (·.covers (utf8Length before)) = 1)

/-- The tokens of every text that is cut into tokens and is shorter than 2^32 bytes, so that its
offsets fit into spans, are well placed: the last one is the only end of the input and stands at the
end of the text; the others are not empty; they follow one another, lie inside the text and begin
and end between characters; and between them there are blanks only, so that every other character
belongs to exactly one of them. -/
theorem Token.scan_wellPlaced {source : String} {ts : List Token} (h : scan source = .ok ts)
    (hsize : source.utf8ByteSize ≤ Span.limit) : WellPlaced source ts := by
  have hlength := utf8ByteSize_eq source
  have hlimit : utf8Length ([] ++ source.toList) ≤ Span.limit := by
    rw [List.nil_append, ← hlength]
    exact hsize
  have hlayout : Layout [] source.toList ts :=
    (scanFrom_eq_iff.mp h).layout rfl hlimit rfl
  constructor
  · rw [hlength]
    exact hlayout.eof
  · exact hlayout.pairwise
  · rw [hlength]
    exact fun t ht => (hlayout.bounds t ht).2
  · exact hlayout.onBoundary
  · exact hlayout.blankBetween ⟨0, 0⟩ rfl
  · exact fun before c after heq => hlayout.countP heq

/-- A text of several bytes per character that goes on over a line break, then a line break of two
characters and an integer with a point behind it. -/
theorem Token.scan_wellPlaced_lines :
    scan "t = 'é\r\n€' \r\n\t1." =
        .ok [⟨.ident "t", ⟨0, 1⟩⟩, ⟨.symbol .eq, ⟨2, 3⟩⟩, ⟨.text "é\r\n€", ⟨4, 13⟩⟩,
          ⟨.newline, ⟨14, 16⟩⟩, ⟨.number (.ofWritten false 1), ⟨17, 19⟩⟩, ⟨.eof, ⟨19, 19⟩⟩] ∧
      WellPlaced "t = 'é\r\n€' \r\n\t1."
        [⟨.ident "t", ⟨0, 1⟩⟩, ⟨.symbol .eq, ⟨2, 3⟩⟩, ⟨.text "é\r\n€", ⟨4, 13⟩⟩,
          ⟨.newline, ⟨14, 16⟩⟩, ⟨.number (.ofWritten false 1), ⟨17, 19⟩⟩, ⟨.eof, ⟨19, 19⟩⟩] :=
  ⟨by decide +kernel, scan_wellPlaced (by decide +kernel) (by decide)⟩

end Edict

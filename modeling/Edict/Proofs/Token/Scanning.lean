import Edict.Proofs.Token.Longest
import Edict.Token.Scan
import Mathlib.Data.List.TakeWhile

/-!
# Cutting a text

`Scans` is the lexical part of the language written as a relation: what a text is cut into, one word
after the other, each the longest that some rule has (`Longest`).  It mentions no search and no
derivatives.  `scanFrom_eq_iff` shows that `Token.scan` computes this relation, and with it what the
longest word is for names, for signs of several characters and for texts.

## Main definitions

* `Scans`: a text is cut into tokens, or is not because of an error, as a relation.
* `Lexeme.Becomes`, `TakesPoint`: the token that a word becomes, and when a point belongs to the
  digits in front of it.
* `Token.CutsOff`: a text begins with a word that becomes a token of a certain kind.

## Main statements

* `scanFrom_eq_iff`: `Token.scanFrom` computes the relation, for every text and offset, errors
  included.
* `Token.scan_longest_words`: this for whole texts, and the longest words of names, signs, quoted
  texts and errors.
-/

namespace Edict

open Rule

/-! ## The values of numbers -/

namespace Number

variable {ds fs : List Char}

/-- Digits with a point and maybe more digits behind it. -/
theorem unsigned?_point (hds : Digits ds) (hfs : ∀ d ∈ fs, d.isDigit = true) :
    unsigned? (ds ++ '.' :: fs) = some (ofDecimal ⟨digitsValue (ds ++ fs), 0 - fs.length⟩) := by
  have hfront : (ds ++ '.' :: fs).takeWhile Char.isDigit = ds := by
    rw [List.takeWhile_append_of_pos hds.isDigit, List.takeWhile_cons_of_neg (by decide),
      List.append_nil]
  have hrest : (ds ++ '.' :: fs).dropWhile Char.isDigit = '.' :: fs := by
    rw [List.dropWhile_append_of_pos hds.isDigit, List.dropWhile_cons_of_neg (by decide)]
  have hfraction : fs.takeWhile Char.isDigit = fs := List.takeWhile_eq_self_iff.mpr hfs
  have hafter : fs.dropWhile Char.isDigit = [] := List.dropWhile_eq_nil_iff.mpr hfs
  simp [unsigned?, hfront, hrest, hfraction, hafter, hds.ne_nil, exponentOf?]

/-- Digits alone. -/
theorem unsigned?_digits (hds : Digits ds) :
    unsigned? ds = some (ofDecimal ⟨digitsValue ds, 0⟩) := by
  have hfront : ds.takeWhile Char.isDigit = ds := List.takeWhile_eq_self_iff.mpr hds.isDigit
  have hrest : ds.dropWhile Char.isDigit = [] := List.dropWhile_eq_nil_iff.mpr hds.isDigit
  simp [unsigned?, hfront, hrest, hds.ne_nil, exponentOf?]

/-- What begins with a digit is not the name of a special number. -/
theorem magnitude?_digits (hds : Digits ds) (rest : List Char) :
    magnitude? (ds ++ rest) = unsigned? (ds ++ rest) := by
  obtain ⟨d, ds, rfl⟩ := List.exists_cons_of_ne_nil hds.ne_nil
  have hd : d.isDigit = true := hds.isDigit d List.mem_cons_self
  have hletter : ∀ c, c.isAlpha = true → d.toLower ≠ c := by
    rintro c hc rfl
    rw [isDigit_of_isAlpha (isAlpha_of_toLower hc)] at hd
    cases hd
  have hn : d.toLower ≠ 'n' := hletter 'n' (by decide)
  have hi : d.toLower ≠ 'i' := hletter 'i' (by decide)
  simp [magnitude?, hn, hi]

end Number

namespace Numeral

variable {w : List Char}

/-- What is read from a sign and digits is what is read from the digits, with the sign. -/
theorem exists_signed {m ds : List Char} (hm : m ∈ [[], ['-']]) (hds : Digits ds) :
    ∃ sign : Float → Numeral, ∀ rest,
      ofChars? (m ++ (ds ++ rest)) = (Number.unsigned? (ds ++ rest)).map sign := by
  rcases List.mem_cons.mp hm with rfl | hm
  · refine ⟨ofWritten false, fun rest => ?_⟩
    rw [← Number.magnitude?_digits hds]
    obtain ⟨d, ds, rfl⟩ := List.exists_cons_of_ne_nil hds.ne_nil
    have hd : d.isDigit = true := hds.isDigit d List.mem_cons_self
    have hminus : d ≠ '-' := by
      rintro rfl
      cases hd
    have hplus : d ≠ '+' := by
      rintro rfl
      cases hd
    simp [ofChars?, hminus, hplus]
  · obtain rfl := List.mem_singleton.mp hm
    refine ⟨fun x => ofWritten true (-x), fun rest => ?_⟩
    rw [← Number.magnitude?_digits hds]
    rfl

/-- Every number of the language is read. -/
theorem exists_ofChars? (h : Word .number .number w) : ∃ n, ofChars? w = some n := by
  cases h with
  | @whole m ds hm hds =>
      obtain ⟨sign, hsign⟩ := exists_signed hm hds
      have hread := hsign []
      rw [List.append_nil, Number.unsigned?_digits hds] at hread
      exact ⟨_, hread⟩
  | @fraction m ds fs hm hds hfs =>
      obtain ⟨sign, hsign⟩ := exists_signed hm hds
      have hread := hsign ('.' :: fs)
      rw [Number.unsigned?_point hds hfs.isDigit] at hread
      exact ⟨_, hread⟩

/-- A point behind an integer does not change its value. -/
theorem ofChars?_point (h : Word .number .number w) (hpoint : '.' ∉ w) :
    ofChars? (w ++ ['.']) = ofChars? w := by
  cases h with
  | @whole m ds hm hds =>
      obtain ⟨sign, hsign⟩ := exists_signed hm hds
      have hdigits := hsign []
      have hwithPoint := hsign ['.']
      rw [List.append_nil, Number.unsigned?_digits hds] at hdigits
      rw [Number.unsigned?_point hds (List.forall_mem_nil _), List.append_nil] at hwithPoint
      rw [List.append_assoc, hwithPoint, hdigits]
      rfl
  | fraction => simp at hpoint

end Numeral

/-! ## What a text is cut into -/

/-- What a word of the language becomes. -/
inductive Lexeme.Becomes : Lexeme → List Char → TokenKind → Prop
  | fixed {k : TokenKind} {w : List Char} : Becomes (.fixed k) w k
  | number {n : Numeral} {w : List Char} :
      Numeral.ofChars? w = some n → Becomes .number w (.number n)
  | name {w : List Char} : Becomes .name w (.ident (String.ofList w))
  | text {q : Char} {body : List Char} :
      Becomes .quotedText (q :: (body ++ [q])) (.text (String.ofList body))

/-- A point behind an integer belongs to it, unless a digit or another point follows. -/
structure TakesPoint (l : Lexeme) (w : List Char) (after : List Char) : Prop where
  number : l = .number
  whole : '.' ∉ w
  next : ∀ c ∈ after.head?, c.isDigit = false ∧ c ≠ '.'

/-- What the text that begins at byte `here` is cut into: blanks are skipped, at every other place
the longest word is taken. -/
inductive Scans : Nat → List Char → Except ScanError (List Token) → Prop
  | finish {here : Nat} : Scans here [] (.ok [⟨.eof, Span.ofRange here here⟩])
  | blank {here : Nat} {c : Char} {cs : List Char} {r : Except ScanError (List Token)} :
      isBlank c = true → Scans (here + c.utf8Size) cs r → Scans here (c :: cs) r
  | word {here : Nat} {l : Lexeme} {k : TokenKind} {w rest : List Char}
      {r : Except ScanError (List Token)} :
      Longest l w rest → (∀ after, rest = '.' :: after → ¬ TakesPoint l w after) → l.Becomes w k →
      Scans (here + utf8Length w) rest r →
      Scans here (w ++ rest) (r.map (⟨k, Span.ofRange here (here + utf8Length w)⟩ :: ·))
  | point {here : Nat} {l : Lexeme} {k : TokenKind} {w after : List Char}
      {r : Except ScanError (List Token)} :
      Longest l w ('.' :: after) → TakesPoint l w after → l.Becomes w k →
      Scans (here + utf8Length w + 1) after r →
      Scans here (w ++ '.' :: after)
        (r.map (⟨k, Span.ofRange here (here + utf8Length w + 1)⟩ :: ·))
  | openText {here : Nat} {w rest : List Char} :
      Longest .openText w rest →
      Scans here (w ++ rest)
        (.error (.unterminatedText (Span.ofRange here (here + utf8Length w))))
  | malformedNumber {here : Nat} {w rest : List Char} :
      Longest .malformedNumber w rest →
      Scans here (w ++ rest)
        (.error (.malformedNumber (String.ofList w) (Span.ofRange here (here + utf8Length w))))
  | unexpectedChar {here : Nat} {c : Char} {cs : List Char} :
      isBlank c = false → (∀ l w, w <+: c :: cs → ¬ Accepts l w) →
      Scans here (c :: cs) (.error (.unexpectedChar c (Span.ofRange here (here + c.utf8Size))))

/-! ## What the scan does -/

namespace Token

variable {here : Nat} {l : Lexeme} {k : TokenKind} {c : Char} {cs w rest after : List Char}

/-- The scan looks at a point behind an integer. -/
theorem trailingPoint_iff :
    trailingPoint l w rest = true ↔ ∃ after, rest = '.' :: after ∧ TakesPoint l w after := by
  unfold trailingPoint
  split
  · rename_i after
    have hnext : (after.head?.any fun c => c.isDigit || c == '.') = false ↔
        ∀ c ∈ after.head?, c.isDigit = false ∧ c ≠ '.' := by cases after <;> simp
    have hwhole : w.contains '.' = false ↔ '.' ∉ w := by simp
    rw [Bool.and_eq_true, Bool.not_eq_true', Bool.not_eq_true', hwhole, hnext]
    constructor
    · rintro ⟨hw, hafter⟩
      exact ⟨after, rfl, rfl, hw, hafter⟩
    · rintro ⟨after, heq, -, hw, hafter⟩
      cases heq
      exact ⟨hw, hafter⟩
  · rename_i hother
    refine ⟨nofun, ?_⟩
    rintro ⟨after, rfl, rfl, -⟩
    exact (hother after rfl rfl).elim

/-- Without a point behind it, the next word is the longest one. -/
theorem nextWord_word (h : Longest l w rest) (hpoint : ∀ after, rest = '.' :: after →
    ¬ TakesPoint l w after) : nextWord (w ++ rest) = (l, w.length) := by
  have hno : ¬ trailingPoint l w rest = true := by
    rw [trailingPoint_iff]
    rintro ⟨after, heq, htakes⟩
    exact hpoint after heq htakes
  simp [nextWord, h.longest_eq, hno]

/-- A point that belongs to the longest word makes the next word longer by one. -/
theorem nextWord_point (h : Longest l w ('.' :: after)) (hpoint : TakesPoint l w after) :
    nextWord (w ++ '.' :: after) = (l, w.length + 1) := by
  have hyes : trailingPoint l w ('.' :: after) = true := trailingPoint_iff.mpr ⟨after, rfl, hpoint⟩
  simp [nextWord, h.longest_eq, hyes]

/-- Without a word there is no next word. -/
theorem nextWord_none (h : ∀ l w, w <+: cs → ¬ Accepts l w) : (nextWord cs).2 = 0 := by
  rcases longest_spec cs with ⟨hzero, -⟩ | ⟨l, w, rest, rfl, -, hlongest⟩
  · have hno : ¬ trailingPoint (Rule.longest table cs).1 [] cs = true := by
      rw [trailingPoint_iff]
      rintro ⟨after, rfl, -⟩
      -- a point is a word itself
      have hdot : Word .sign (.fixed (.symbol .dot)) ['.'] := .sign (by decide)
      exact h _ _ (List.prefix_append ['.'] after) hdot.accepts
    simp [nextWord, hzero, hno]
  · exact absurd hlongest.accepts (h l w (List.prefix_append w rest))

/-- Blanks are skipped. -/
theorem scanFrom_blank (h : isBlank c = true) :
    scanFrom here (c :: cs) = scanFrom (here + c.utf8Size) cs := by
  rw [scanFrom, if_pos h]

/-- The scan of a text with its next word. -/
theorem scanFrom_nextWord (hw : ∃ c cs, w = c :: cs ∧ isBlank c = false)
    (h : nextWord (w ++ rest) = (l, w.length)) :
    scanFrom here (w ++ rest) =
      ofWord l w (Span.ofRange here (here + utf8Length w)) >>= fun kind =>
        (scanFrom (here + utf8Length w) rest).map
          (⟨kind, Span.ofRange here (here + utf8Length w)⟩ :: ·) := by
  obtain ⟨c, cs, rfl, hblank⟩ := hw
  rw [List.cons_append, List.length_cons] at h
  rw [List.cons_append, scanFrom, if_neg (by simp [hblank]), h]
  simp only [List.take_left, List.drop_left]
  rfl

/-- The payload of a text is what stands between its quotes. -/
theorem unquote_text (q : Char) (body : List Char) :
    unquote (q :: (body ++ [q])) = String.ofList body := by
  simp [unquote]

/-- The scan makes of a word what the word becomes. -/
theorem ofWord_eq (h : l.Becomes w k) (span : Span) : ofWord l w span = .ok k := by
  cases h with
  | fixed => rfl
  | number hn => simp [ofWord, hn]
  | name => rfl
  | text => simp [ofWord, unquote_text]

/-- A point behind an integer changes nothing of what the integer becomes. -/
theorem ofWord_point (h : Longest l w ('.' :: after)) (hpoint : TakesPoint l w after)
    (hk : l.Becomes w k) (span : Span) : ofWord l (w ++ ['.']) span = .ok k := by
  obtain ⟨rfl, hwhole, -⟩ := hpoint
  obtain ⟨f, hword⟩ := accepts_iff_word.mp h.accepts
  have hnumber : Word .number .number w := by
    cases hword with
    | whole hm hds => exact .whole hm hds
    | fraction hm hds hfs => exact .fraction hm hds hfs
  cases hk with
  | number hn => simp [ofWord, Numeral.ofChars?_point hnumber hwhole, hn]

/-- The scan of a text with its longest word. -/
theorem scanFrom_longest (h : Longest l w rest)
    (hpoint : ∀ after, rest = '.' :: after → ¬ TakesPoint l w after) :
    scanFrom here (w ++ rest) =
      ofWord l w (Span.ofRange here (here + utf8Length w)) >>= fun kind =>
        (scanFrom (here + utf8Length w) rest).map
          (⟨kind, Span.ofRange here (here + utf8Length w)⟩ :: ·) := by
  exact scanFrom_nextWord h.exists_cons (nextWord_word h hpoint)

/-- The longest word is taken. -/
theorem scanFrom_word (h : Longest l w rest)
    (hpoint : ∀ after, rest = '.' :: after → ¬ TakesPoint l w after) (hk : l.Becomes w k) :
    scanFrom here (w ++ rest) =
      (scanFrom (here + utf8Length w) rest).map
        (⟨k, Span.ofRange here (here + utf8Length w)⟩ :: ·) := by
  rw [scanFrom_longest h hpoint, ofWord_eq hk]
  rfl

/-- A point that belongs to the longest word is taken with it. -/
theorem scanFrom_point (h : Longest l w ('.' :: after)) (hpoint : TakesPoint l w after)
    (hk : l.Becomes w k) :
    scanFrom here (w ++ '.' :: after) =
      (scanFrom (here + utf8Length w + 1) after).map
        (⟨k, Span.ofRange here (here + utf8Length w + 1)⟩ :: ·) := by
  have hlength : here + utf8Length (w ++ ['.']) = here + utf8Length w + 1 := by
    rw [utf8Length_append, ← Nat.add_assoc]
    rfl
  have hw : ∃ c cs, w ++ ['.'] = c :: cs ∧ isBlank c = false := by
    obtain ⟨c, cs, rfl, hblank⟩ := h.exists_cons
    exact ⟨c, cs ++ ['.'], rfl, hblank⟩
  have hnext : nextWord (w ++ ['.'] ++ after) = (l, (w ++ ['.']).length) := by
    rw [List.append_assoc, List.length_append]
    exact nextWord_point h hpoint
  have hscan : scanFrom here (w ++ ['.'] ++ after) = _ := scanFrom_nextWord hw hnext
  rw [hlength, ofWord_point h hpoint hk, List.append_assoc] at hscan
  exact hscan

/-- Where no rule has a word, the scan ends. -/
theorem scanFrom_unexpectedChar (hblank : isBlank c = false)
    (h : ∀ l w, w <+: c :: cs → ¬ Accepts l w) :
    scanFrom here (c :: cs) =
      .error (.unexpectedChar c (Span.ofRange here (here + c.utf8Size))) := by
  have hzero := nextWord_none h
  rw [scanFrom, if_neg (by simp [hblank])]
  rcases hnext : nextWord (c :: cs) with ⟨l, n⟩
  rw [hnext] at hzero
  obtain rfl : n = 0 := hzero
  rfl

end Token

/-- The scan gives what the text is cut into. -/
theorem Scans.scanFrom_eq {here : Nat} {cs : List Char} {r : Except ScanError (List Token)}
    (h : Scans here cs r) : Token.scanFrom here cs = r := by
  induction h with
  | finish => rw [Token.scanFrom]
  | blank hblank _ ih => rw [Token.scanFrom_blank hblank, ih]
  | word hlongest hpoint hk _ ih => rw [Token.scanFrom_word hlongest hpoint hk, ih]
  | point hlongest hpoint hk _ ih => rw [Token.scanFrom_point hlongest hpoint hk, ih]
  | openText hlongest =>
      rw [Token.scanFrom_longest hlongest fun _ _ htakes => by cases htakes.number]
      rfl
  | malformedNumber hlongest =>
      rw [Token.scanFrom_longest hlongest fun _ _ htakes => by cases htakes.number]
      rfl
  | unexpectedChar hblank hnone => exact Token.scanFrom_unexpectedChar hblank hnone

/-- Every word of the language becomes a token or is an error. -/
theorem Longest.becomes {l : Lexeme} {w rest : List Char} (h : Longest l w rest) :
    (∃ k, l.Becomes w k) ∨ l = .openText ∨ l = .malformedNumber := by
  obtain ⟨f, hword⟩ := accepts_iff_word.mp h.accepts
  have hnumber : ∀ {v}, Word .number .number v → ∃ k, Lexeme.Becomes .number v k := by
    intro v hv
    obtain ⟨n, hn⟩ := Numeral.exists_ofChars? hv
    exact ⟨_, .number hn⟩
  cases hword with
  | sign _ => exact .inl ⟨_, .fixed⟩
  | lineBreak _ => exact .inl ⟨_, .fixed⟩
  | whole hm hds => exact .inl (hnumber (.whole hm hds))
  | fraction hm hds hfs => exact .inl (hnumber (.fraction hm hds hfs))
  | manyPoints => exact .inr (.inr rfl)
  | closed _ _ => exact .inl ⟨_, .text⟩
  | opened _ _ => exact .inr (.inl rfl)
  | reserved _ => exact .inl ⟨_, .fixed⟩
  | name _ _ => exact .inl ⟨_, .name⟩

/-- Every text is cut into what the scan gives. -/
theorem scans_scanFrom (here : Nat) (cs : List Char) : Scans here cs (Token.scanFrom here cs) := by
  induction hn : cs.length using Nat.strongRecOn generalizing here cs with
  | ind n ih =>
      subst hn
      rcases cs with _ | ⟨c, cs⟩
      · rw [Token.scanFrom]
        exact .finish
      · rcases hblank : isBlank c
        · rcases longest_spec (c :: cs) with ⟨-, hnone⟩ | ⟨l, w, rest, heq, -, hlongest⟩
          · rw [Token.scanFrom_unexpectedChar hblank hnone]
            exact .unexpectedChar hblank hnone
          · have hpos : 0 < w.length := List.length_pos_iff.mpr hlongest.ne_nil
            rw [heq] at ih ⊢
            rcases hlongest.becomes with ⟨k, hk⟩ | rfl | rfl
            · by_cases hpoint : ∃ after, rest = '.' :: after ∧ TakesPoint l w after
              · obtain ⟨after, rfl, htakes⟩ := hpoint
                rw [Token.scanFrom_point hlongest htakes hk]
                refine .point hlongest htakes hk (ih _ ?_ _ _ rfl)
                simp
                omega
              · have hno : ∀ after, rest = '.' :: after → ¬ TakesPoint l w after :=
                  fun after hafter htakes => hpoint ⟨after, hafter, htakes⟩
                rw [Token.scanFrom_word hlongest hno hk]
                refine .word hlongest hno hk (ih _ ?_ _ _ rfl)
                simp
                omega
            · rw [(Scans.openText hlongest).scanFrom_eq]
              exact .openText hlongest
            · rw [(Scans.malformedNumber hlongest).scanFrom_eq]
              exact .malformedNumber hlongest
        · rw [Token.scanFrom_blank hblank]
          exact .blank hblank (ih _ (Nat.lt_succ_self _) _ _ rfl)

/-- What a text is cut into is what the scan gives. -/
theorem scanFrom_eq_iff {here : Nat} {cs : List Char} {r : Except ScanError (List Token)} :
    Token.scanFrom here cs = r ↔ Scans here cs r := by
  constructor
  · rintro rfl
    exact scans_scanFrom here cs
  · exact Scans.scanFrom_eq

/-! ## Names, signs and texts -/

namespace Token

/-- The scan cuts the word off the text, whatever stands before it, as a token of the kind. -/
def CutsOff (w rest : List Char) (k : TokenKind) : Prop :=
  ∀ here, scanFrom here (w ++ rest) =
    (scanFrom (here + utf8Length w) rest).map (⟨k, Span.ofRange here (here + utf8Length w)⟩ :: ·)

/-- The longest word is cut off the text, unless it is a number and might take a point. -/
theorem cutsOff_of_longest {l : Lexeme} {w rest : List Char} {k : TokenKind}
    (h : Longest l w rest) (hl : l ≠ .number) (hk : l.Becomes w k) : CutsOff w rest k :=
  fun _ => scanFrom_word h (fun _ _ htakes => hl htakes.number) hk

/-- A name is a reserved word, in any letter case, or it stands for itself. -/
theorem cutsOff_name {c : Char} {cs rest : List Char} (hc : startsName c = true)
    (hcs : ∀ d ∈ cs, continuesName d = true) (hrest : ∀ d ∈ rest.head?, continuesName d = false) :
    ∃ k, CutsOff (c :: cs) rest k ∧
      ((k, (c :: cs).map Char.toLower) ∈ reserved ∨
        (∀ k', (k', (c :: cs).map Char.toLower) ∉ reserved) ∧
          k = .ident (String.ofList (c :: cs))) := by
  have hlongest := Longest.ofName hc hcs hrest
  unfold nameLexeme at hlongest
  rcases hkind : reserved? (c :: cs) with _ | k
  · rw [hkind] at hlongest
    exact ⟨_, cutsOff_of_longest hlongest nofun .name,
      .inr ⟨fun k' => not_mem_reserved_of_reserved? hkind, rfl⟩⟩
  · rw [hkind] at hlongest
    exact ⟨k, cutsOff_of_longest hlongest nofun .fixed, .inl (mem_reserved_of_reserved? hkind)⟩

/-- At every place the scan takes the longest word that some rule of the table has, fixed words
before general shapes, and it ends where there is none or where the word is no token (`Scans`).  So
a name that no character of names follows is a reserved word just when it is one in lower case, and
else it is the name that it spells; a sign of several characters is never cut; a text ends at its
second quote and is what stands between the two; without a second quote the scan fails. -/
theorem scan_longest_words :
    (∀ (source : String) (r : Except ScanError (List Token)),
      scan source = r ↔ Scans 0 source.toList r) ∧
    (∀ (c : Char) (cs rest : List Char), startsName c = true →
      (∀ d ∈ cs, continuesName d = true) → (∀ d ∈ rest.head?, continuesName d = false) →
      ∃ k, CutsOff (c :: cs) rest k ∧
        ((k, (c :: cs).map Char.toLower) ∈ reserved ∨
          (∀ k', (k', (c :: cs).map Char.toLower) ∉ reserved) ∧
            k = .ident (String.ofList (c :: cs)))) ∧
    (∀ (k : TokenKind) (w rest : List Char), (k, w) ∈ signs → 2 ≤ w.length → CutsOff w rest k) ∧
    (∀ (q : Char) (body rest : List Char), q ∈ ['"', '\''] → q ∉ body →
      CutsOff (q :: (body ++ [q])) rest (.text (String.ofList body))) ∧
    (∀ (here : Nat) (q : Char) (body : List Char), q ∈ ['"', '\''] → q ∉ body →
      scanFrom here (q :: body) =
        .error (.unterminatedText (Span.ofRange here (here + utf8Length (q :: body))))) := by
  refine ⟨fun source r => scanFrom_eq_iff, fun c cs rest hc hcs hrest => cutsOff_name hc hcs hrest,
    fun k w rest hk hlong => ?_, fun q body rest hq hbody => ?_, fun here q body hq hbody => ?_⟩
  · exact cutsOff_of_longest (.ofSign hk hlong) nofun .fixed
  · exact cutsOff_of_longest (.ofText hq hbody) nofun .text
  · have herror := @Scans.openText here _ _ (Longest.ofOpenText hq hbody)
    rw [List.append_nil] at herror
    exact herror.scanFrom_eq

/-- A name that begins like a keyword, a sign of two characters, an integer with a point behind it,
a name that begins like two signs' words and a text, all run together; then a text that is not
closed, a number with two points and a sign of no meaning. -/
theorem scan_longest_words_together :
    Scans 0 "iffy<=1.Or'\"'".toList
        (.ok [⟨.ident "iffy", ⟨0, 4⟩⟩, ⟨.symbol .ltEq, ⟨4, 6⟩⟩,
          ⟨.number (.ofWritten false 1), ⟨6, 8⟩⟩, ⟨.combinator .or, ⟨8, 10⟩⟩,
          ⟨.text "\"", ⟨10, 13⟩⟩, ⟨.eof, ⟨13, 13⟩⟩]) ∧
      Scans 0 "a 'b".toList (.error (.unterminatedText ⟨2, 4⟩)) ∧
      Scans 0 "-1.2.3".toList (.error (.malformedNumber "-1.2.3" ⟨0, 6⟩)) ∧
      Scans 0 "a?".toList (.error (.unexpectedChar '?' ⟨1, 2⟩)) := by
  have hscan := scan_longest_words.1
  exact ⟨(hscan _ _).mp (by decide +kernel), (hscan _ _).mp (by decide +kernel),
    (hscan _ _).mp (by decide +kernel), (hscan _ _).mp (by decide +kernel)⟩

end Token

end Edict

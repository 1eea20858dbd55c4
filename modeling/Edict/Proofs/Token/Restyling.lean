import Edict.Proofs.Token.Joining
import Edict.Proofs.Token.Stopping

/-!
# Other layouts of a text

A text may be written in other ways that mean the same (`Restyled`): with more blanks between its
words, with other letter cases of reserved words, with the other quotes around texts and with other
line breaks.  `Restyled.scans` shows that it is then cut into tokens of the same kinds.

Two words next to each other might become another word when one of them is written in another way.
That this does not happen is shown for one word at a time (`Cut.respelled`), by what may follow it:
a sign or a number could only go on with characters that are written in one way (`isExact`), a name
or a reserved word with characters of names, and a carriage return with a line feed.

## Main definitions

* `Respells`, `Restyled`: other ways to write a word, and a text.
* `Cut`: a word in front of a rest becomes a token, as the scan has it.

## Main statements

* `Cut.respelled`: a word that is written in another way, in front of a rest that is, becomes the
  same token.
* `Restyled.scans`: both texts are cut into tokens of the same kinds, wherever they begin.
-/

namespace Edict

open Rule

deriving instance DecidableEq for Lexeme

/-! ## Ways to write a text -/

/-- How line breaks are written. -/
inductive LineStyle where
  | lf
  | crlf
  | cr
deriving DecidableEq

/-- The characters of a line break. -/
def LineStyle.chars : LineStyle → List Char
  | .lf => ['\n']
  | .crlf => ['\r', '\n']
  | .cr => ['\r']

/-- What a word that becomes a token of the kind may be written as instead.  If there is a style of
line breaks, all of them are written in it, else they are left as they are. -/
inductive Respells (style : Option LineStyle) : TokenKind → List Char → List Char → Prop
  | same {k : TokenKind} {w : List Char} : (k = .newline → style = none) → Respells style k w w
  /-- A reserved word in another letter case. -/
  | letters {k : TokenKind} {w w' : List Char} : (k, w.map Char.toLower) ∈ reserved →
      w'.map Char.toLower = w.map Char.toLower → Respells style k w w'
  /-- A text between other quotes, if these are not in it. -/
  | quotes {s : String} {q q' : Char} {body : List Char} : q' ∈ ['"', '\''] → q' ∉ body →
      Respells style (.text s) (q :: (body ++ [q])) (q' :: (body ++ [q']))
  | lineBreak {b : LineStyle} {w : List Char} : style = some b → Respells style .newline w b.chars

/-- What a text that is cut into tokens may be written as instead: blanks may be put in where words
begin and end, and the words may be written in other ways. -/
inductive Restyled (style : Option LineStyle) : List Char → List Char → Prop
  | finish : Restyled style [] []
  | blank {c : Char} {cs cs' : List Char} : isBlank c = true → Restyled style cs cs' →
      Restyled style (c :: cs) (c :: cs')
  | insert {c : Char} {cs cs' : List Char} : isBlank c = true → Restyled style cs cs' →
      Restyled style cs (c :: cs')
  | word {l : Lexeme} {k : TokenKind} {w w' rest rest' : List Char} {span : Span} : w ≠ [] →
      Token.nextWord (w ++ rest) = (l, w.length) → Token.ofWord l w span = .ok k →
      Respells style k w w' → Restyled style rest rest' → Restyled style (w ++ rest) (w' ++ rest')

/-! ## The next word -/

/-- The word in front of `rest` becomes a token of the kind: it is the longest one, with the point
that belongs to it. -/
inductive Cut (k : TokenKind) : List Char → List Char → Prop
  | word {l : Lexeme} {w rest : List Char} : Longest l w rest →
      (∀ after, rest = '.' :: after → ¬ TakesPoint l w after) → l.Becomes w k → Cut k w rest
  | point {l : Lexeme} {w after : List Char} : Longest l w ('.' :: after) → TakesPoint l w after →
      l.Becomes w k → Cut k (w ++ ['.']) after

namespace Cut

variable {l : Lexeme} {k : TokenKind} {w rest : List Char} {here : Nat} {ts : List Token}

/-- The word is cut off a text, and the rest is cut into tokens. -/
theorem scans (h : Cut k w rest) (hrest : Scans (here + utf8Length w) rest (.ok ts)) :
    Scans here (w ++ rest) (.ok (⟨k, Span.ofRange here (here + utf8Length w)⟩ :: ts)) := by
  cases h with
  | word hlongest hpoint hk => exact .word hlongest hpoint hk hrest
  | @point l w after hlongest hpoint hk =>
      have hsize : here + utf8Length (w ++ ['.']) = here + utf8Length w + 1 := by
        rw [utf8Length_append, ← Nat.add_assoc]
        rfl
      rw [hsize] at hrest ⊢
      rw [List.append_assoc]
      exact .point hlongest hpoint hk hrest

/-- What the longest word becomes is what is made of it. -/
theorem becomes_of_ofWord {span : Span} (h : Longest l w rest)
    (hk : Token.ofWord l w span = .ok k) : l.Becomes w k := by
  rcases h.becomes with ⟨k', hk'⟩ | rfl | rfl
  · rw [Token.ofWord_eq hk'] at hk
    cases hk
    exact hk'
  · cases hk
  · cases hk

/-- What begins with a line feed or a carriage return is a line break. -/
theorem eq_newline {c : Char} {cs : List Char} (h : Cut k (c :: cs) rest)
    (hc : Front.lineBreak.has c = true) : k = .newline := by
  obtain ⟨l, v, more, hlongest, hk, hv⟩ : ∃ l v more, Longest l v more ∧ l.Becomes v k ∧
      v <+: c :: cs := by
    generalize c :: cs = w at h
    cases h with
    | word hlongest _ hk => exact ⟨_, _, _, hlongest, hk, List.prefix_refl _⟩
    | point hlongest _ hk => exact ⟨_, _, _, hlongest, hk, List.prefix_append _ _⟩
  obtain ⟨d, v, rfl⟩ := List.exists_cons_of_ne_nil hlongest.ne_nil
  obtain ⟨rfl, -⟩ := List.cons_prefix_cons.mp hv
  obtain ⟨f, hword⟩ := accepts_iff_word.mp hlongest.accepts
  have hminus : d ≠ '-' := by
    rintro rfl
    cases hc
  obtain rfl : f = .lineBreak := hword.front_eq hc hminus
  cases hword
  cases hk
  rfl

/-- The next word of a text is cut off it. -/
theorem of_nextWord {span : Span} (hw : w ≠ []) (hnext : Token.nextWord (w ++ rest) = (l, w.length))
    (hk : Token.ofWord l w span = .ok k) : Cut k w rest := by
  rcases longest_spec (w ++ rest) with ⟨-, hnone⟩ | ⟨l', w', rest', heq, -, hlongest⟩
  · have hzero := Token.nextWord_none hnone
    rw [hnext] at hzero
    exact absurd (List.eq_nil_of_length_eq_zero hzero) hw
  · by_cases hpoint : ∃ after, rest' = '.' :: after ∧ TakesPoint l' w' after
    · obtain ⟨after, rfl, htakes⟩ := hpoint
      rw [heq, Token.nextWord_point hlongest htakes] at hnext
      obtain ⟨rfl, hlength⟩ := Prod.mk.inj hnext
      have hsplit : w ++ rest = (w' ++ ['.']) ++ after := by rw [heq, List.append_assoc]; rfl
      obtain ⟨rfl, rfl⟩ := List.append_inj hsplit (by rw [← hlength, List.length_append]; rfl)
      obtain ⟨rfl, -, -⟩ := id htakes
      rcases hlongest.becomes with ⟨k', hk'⟩ | hopen | hmalformed
      · rw [Token.ofWord_point hlongest htakes hk'] at hk
        cases hk
        exact .point hlongest htakes hk'
      · cases hopen
      · cases hmalformed
    · have hno : ∀ after, rest' = '.' :: after → ¬ TakesPoint l' w' after :=
        fun after hafter htakes => hpoint ⟨after, hafter, htakes⟩
      rw [heq, Token.nextWord_word hlongest hno] at hnext
      obtain ⟨rfl, hlength⟩ := Prod.mk.inj hnext
      obtain ⟨rfl, rfl⟩ := List.append_inj heq hlength.symm
      exact .word hlongest hno (becomes_of_ofWord hlongest hk)

end Cut

/-! ## Characters that are written in one way -/

/-- Whether signs and numbers may be made of the character. -/
def isExact (c : Char) : Bool := Front.sign.has c || Front.number.has c

/-- Signs and numbers are made of such characters. -/
theorem Word.isExact {f : Front} {l : Lexeme} {w : List Char} (h : Word f l w)
    (hf : f = .sign ∨ f = .number) : ∀ c ∈ w, isExact c = true := by
  rcases hf with rfl | rfl
  · have hsigns : ∀ p ∈ signs, p.2.all Edict.isExact = true := by decide
    cases h with
    | sign hmem => exact List.all_eq_true.mp (hsigns _ hmem)
  · intro c hc
    rcases h.mem_number c hc with hdigit | hmark
    · simp [Edict.isExact, Front.has, hdigit]
    · have hmarks : ['-', '.'].all Edict.isExact = true := by decide
      exact List.all_eq_true.mp hmarks c hmark

/-- No other words begin with such characters. -/
theorem Front.not_isExact {f : Front} {c : Char} (hc : f.has c = true) (hsign : f ≠ .sign)
    (hnumber : f ≠ .number) : isExact c = false := by
  refine Bool.eq_false_iff.mpr fun hexact => ?_
  have hminus : c ≠ '-' := by
    rintro rfl
    exact (Front.eq_of_has_minus hc).elim hsign hnumber
  rcases Bool.or_eq_true_iff.mp hexact with h | h
  · exact hsign (Front.eq_of_has hc h hminus)
  · exact hnumber (Front.eq_of_has hc h hminus)

/-- Blanks are no such characters. -/
theorem not_isExact_of_isBlank {c : Char} (h : isBlank c = true) : isExact c = false := by
  refine Bool.eq_false_iff.mpr fun hexact => ?_
  rcases Bool.or_eq_true_iff.mp hexact with hc | hc
  all_goals
    rw [Front.isBlank_of_has hc] at h
    cases h

/-- Reserved words begin with letters. -/
theorem begins_of_reserved {k : TokenKind} {w : List Char}
    (h : (k, w.map Char.toLower) ∈ reserved) : ∃ c cs, w = c :: cs ∧ c.isAlpha = true := by
  obtain ⟨hne, hall⟩ := isAlpha_of_reserved h
  obtain ⟨c, cs, rfl⟩ := List.exists_cons_of_ne_nil hne
  exact ⟨c, cs, rfl, hall c List.mem_cons_self⟩

/-- Line breaks begin with a carriage return or a line feed. -/
theorem LineStyle.begins (b : LineStyle) :
    ∃ c cs, b.chars = c :: cs ∧ Front.lineBreak.has c = true := by
  cases b <;> exact ⟨_, _, rfl, rfl⟩

/-- A word that is written in another way is one of letters, a text or a line break. -/
theorem Respells.begins {style : Option LineStyle} {k : TokenKind} {w w' : List Char}
    (h : Respells style k w w') :
    w' = w ∨ ∃ f c cs, w' = c :: cs ∧ Front.has f c = true ∧ f ≠ .sign ∧ f ≠ .number := by
  cases h with
  | same => exact .inl rfl
  | letters hk hlower =>
      obtain ⟨c, cs, rfl, hc⟩ := begins_of_reserved (hlower ▸ hk)
      exact .inr ⟨.letter, c, cs, rfl, startsName_iff.mpr (.inl hc), by decide, by decide⟩
  | quotes hq _ => exact .inr ⟨.quote, _, _, rfl, by simpa [Front.has] using hq, by decide, by decide⟩
  | lineBreak =>
      obtain ⟨c, cs, hchars, hc⟩ := LineStyle.begins _
      exact .inr ⟨.lineBreak, c, cs, hchars, hc, by decide, by decide⟩

/-! ## What may follow a word -/

/-- No such characters stand in front of what begins with another one. -/
theorem prefix_of_not_isExact {x cs : List Char} {c : Char} (hx : ∀ d ∈ x, isExact d = true)
    (h : x <+: c :: cs) (hc : isExact c = false) (ds : List Char) : x <+: ds := by
  rcases x with _ | ⟨d, x⟩
  · exact List.nil_prefix
  · obtain ⟨rfl, -⟩ := List.cons_prefix_cons.mp h
    rw [hx d List.mem_cons_self] at hc
    cases hc

/-- Names do not go on with blanks. -/
theorem not_continuesName_of_isBlank {c : Char} (h : isBlank c = true) :
    continuesName c = false := by
  have hblanks : [' ', '\t', '\x0c'].all (fun c => !continuesName c) = true := by decide
  have hmem : c ∈ [' ', '\t', '\x0c'] := by simpa [isBlank, or_assoc] using h
  simpa using List.all_eq_true.mp hblanks c hmem

namespace Restyled

variable {style : Option LineStyle} {cs cs' : List Char}

/-- Characters of signs and numbers in front were there before. -/
theorem exact_front (h : Restyled style cs cs') {x : List Char}
    (hx : ∀ c ∈ x, isExact c = true) (hcs' : x <+: cs') : x <+: cs := by
  induction h generalizing x with
  | finish => exact hcs'
  | blank hblank _ _ => exact prefix_of_not_isExact hx hcs' (not_isExact_of_isBlank hblank) _
  | insert hblank _ _ => exact prefix_of_not_isExact hx hcs' (not_isExact_of_isBlank hblank) _
  | @word l k w w' rest rest' span _ _ _ hw _ ih =>
      rcases hw.begins with rfl | ⟨f, c, cs, rfl, hc, hsign, hnumber⟩
      · rcases List.prefix_or_prefix_of_prefix hcs' (List.prefix_append w' rest') with hle | ⟨y, rfl⟩
        · exact hle.trans (List.prefix_append _ _)
        · refine (List.prefix_append_right_inj _).mpr (ih (fun c hc => ?_) ?_)
          · exact hx c (List.mem_append_right _ hc)
          · exact (List.prefix_append_right_inj _).mp hcs'
      · exact prefix_of_not_isExact hx hcs' (Front.not_isExact hc hsign hnumber) _

/-- A character of names in front was there before. -/
theorem continuesName_head (h : Restyled style cs cs')
    (hcs : ∀ d ∈ cs.head?, continuesName d = false) : ∀ d ∈ cs'.head?, continuesName d = false := by
  have hone : ∀ {c ds}, continuesName c = false → ∀ d ∈ (c :: ds).head?, continuesName d = false := by
    rintro c _ hc _ ⟨⟩
    exact hc
  cases h with
  | finish => exact hcs
  | blank hblank _ => exact hone (not_continuesName_of_isBlank hblank)
  | insert hblank _ => exact hone (not_continuesName_of_isBlank hblank)
  | word hne _ _ hw _ =>
      cases hw with
      | same =>
          obtain ⟨c, w, rfl⟩ := List.exists_cons_of_ne_nil hne
          exact hone (hcs c rfl)
      | letters hk _ =>
          obtain ⟨c, w, rfl, hc⟩ := begins_of_reserved hk
          have hgoes := continuesName_of_isAlpha hc
          rw [hcs c rfl] at hgoes
          cases hgoes
      | quotes hq _ =>
          simp only [List.mem_cons, List.not_mem_nil, or_false] at hq
          rcases hq with rfl | rfl <;> exact hone rfl
      | @lineBreak b w _ => cases b <;> exact hone rfl

/-- A line feed in front was there before, unless line breaks are now written with it. -/
theorem lineFeed_head (h : Restyled style cs cs') (hcs' : cs'.head? = some '\n') :
    style ≠ some .cr ∧ (style = none → cs.head? = some '\n') := by
  have hblank : ∀ {c}, isBlank c = true → some c ≠ some '\n' := by
    rintro c hc ⟨⟩
    cases hc
  cases h with
  | finish => cases hcs'
  | blank hc _ => exact absurd hcs' (hblank hc)
  | insert hc _ => exact absurd hcs' (hblank hc)
  | @word l k w w' rest rest' span hne hnext hk hw _ =>
      cases hw with
      | same hstyle =>
          obtain ⟨c, w, rfl⟩ := List.exists_cons_of_ne_nil hne
          obtain rfl : c = '\n' := Option.some.inj hcs'
          have hnewline : k = .newline := (Cut.of_nextWord hne hnext hk).eq_newline rfl
          rw [hstyle hnewline]
          exact ⟨nofun, fun _ => rfl⟩
      | letters hk hlower =>
          obtain ⟨c, w, rfl, hc⟩ := begins_of_reserved (hlower ▸ hk)
          obtain rfl : c = '\n' := Option.some.inj hcs'
          cases hc
      | quotes hq _ =>
          obtain rfl := Option.some.inj hcs'
          exact absurd hq (by decide)
      | @lineBreak b w hstyle =>
          rw [hstyle]
          cases b with
          | lf => exact ⟨nofun, nofun⟩
          | crlf => cases hcs'
          | cr => cases hcs'

end Restyled

/-! ## Words in front of another rest -/

/-- No character of names follows a name or a reserved word. -/
theorem Longest.head_of_name {l : Lexeme} {c : Char} {cs rest : List Char}
    (h : Longest l (c :: cs) rest) (hword : Word .letter l (c :: cs)) :
    ∀ d ∈ rest.head?, continuesName d = false := by
  intro d hd
  refine Bool.eq_false_iff.mpr fun hgoes => ?_
  obtain ⟨more, rfl⟩ := List.head?_eq_some_iff.mp hd
  obtain ⟨e, _, heq, hstarts⟩ := hword.begins
  cases heq
  -- the word would go on
  have hlonger : Word .letter (nameLexeme (c :: (cs ++ [d]))) (c :: (cs ++ [d])) := by
    refine Word.ofName hstarts fun e he => ?_
    rcases List.mem_append.mp he with he | he
    · exact hword.continuesName e he
    · rwa [List.mem_singleton.mp he]
  have hle := h.longest _ _ ⟨more, by simp⟩ hlonger.accepts
  have hlength : (c :: (cs ++ [d])).length = (c :: cs).length + 1 := by simp
  omega

/-- A carriage return is a line break if no line feed follows. -/
theorem Longest.ofReturn {rest : List Char} (hrest : rest.head? ≠ some '\n') :
    Longest (.fixed .newline) ['\r'] rest := by
  refine ⟨(Word.lineBreak (by decide)).accepts, fun l' v hv h => ?_, fun _ _ _ => rfl⟩
  obtain ⟨f, hword⟩ := accepts_iff_word.mp h
  obtain ⟨c, v, rfl⟩ := List.exists_cons_of_ne_nil hword.ne_nil
  obtain ⟨rfl, htail⟩ := List.cons_prefix_cons.mp hv
  obtain rfl : f = .lineBreak := hword.front_eq rfl (by decide)
  have hbreak := hword.mem_lineBreak
  simp at hbreak
  rcases hbreak with rfl | rfl
  · obtain ⟨more, rfl⟩ := htail
    exact absurd rfl hrest
  · exact Nat.le_refl _

/-- A line feed does not follow a carriage return that is a line break. -/
theorem Longest.head_of_return {l : Lexeme} {rest : List Char} (h : Longest l ['\r'] rest) :
    rest.head? ≠ some '\n' := by
  intro hhead
  obtain ⟨more, rfl⟩ := List.head?_eq_some_iff.mp hhead
  have hboth : Word .lineBreak (.fixed .newline) ['\r', '\n'] := .lineBreak (by decide)
  exact absurd (h.longest _ _ ⟨more, rfl⟩ hboth.accepts) (by decide)

/-- A sign or a number is the longest word as long as no other characters of signs and numbers
follow it. -/
theorem Longest.of_exact {f : Front} {l : Lexeme} {w rest rest' : List Char} (h : Longest l w rest)
    (hword : Word f l w) (hf : f = .sign ∨ f = .number)
    (hrest : ∀ x, (∀ c ∈ x, isExact c = true) → x <+: rest' → x <+: rest) : Longest l w rest' := by
  refine ⟨h.accepts, fun l' v hv haccepts => ?_, h.fixed⟩
  rcases List.prefix_or_prefix_of_prefix hv (List.prefix_append w rest') with hle | ⟨x, rfl⟩
  · exact hle.length_le
  · obtain ⟨g, hword'⟩ := accepts_iff_word.mp haccepts
    obtain ⟨c, w, rfl⟩ := List.exists_cons_of_ne_nil hword.ne_nil
    have hg : g = .sign ∨ g = .number := by
      obtain ⟨d, ds, heq, hc⟩ := hword'.begins
      cases heq
      by_cases hminus : c = '-'
      · subst hminus
        exact Front.eq_of_has_minus hc
      · rwa [← hword.front_eq hc hminus]
    refine h.longest l' _ ((List.prefix_append_right_inj _).mpr (hrest x (fun c hc => ?_) ?_)) haccepts
    · exact hword'.isExact hg c (List.mem_append_right _ hc)
    · exact (List.prefix_append_right_inj _).mp hv

/-- A point that belongs to a number still does so when what follows is written in another way. -/
theorem TakesPoint.restyled {style : Option LineStyle} {l : Lexeme} {w after after' : List Char}
    (h : TakesPoint l w after) (hafter : Restyled style after after') : TakesPoint l w after' := by
  refine ⟨h.number, h.whole, fun c hc => ?_⟩
  obtain ⟨more', rfl⟩ := List.head?_eq_some_iff.mp hc
  -- a digit or a point would have been there before
  have hbefore : isExact c = true → c.isDigit = false ∧ c ≠ '.' := by
    intro hexact
    obtain ⟨more, rfl⟩ : [c] <+: after :=
      hafter.exact_front (List.forall_mem_singleton.mpr hexact) (List.prefix_append [c] more')
    exact h.next c rfl
  constructor
  · refine Bool.eq_false_iff.mpr fun hdigit => ?_
    rw [(hbefore (by simp [isExact, Front.has, hdigit])).1] at hdigit
    cases hdigit
  · rintro rfl
    exact (hbefore (by decide)).2 rfl

namespace Cut

variable {style : Option LineStyle} {k : TokenKind} {w w' rest rest' : List Char}

/-- A word that is no number becomes its token whatever follows it, if it is the longest one. -/
theorem of_longest {l : Lexeme} (h : Longest l w rest) (hl : l ≠ .number) (hk : l.Becomes w k) :
    Cut k w rest :=
  .word h (fun _ _ htakes => hl htakes.number) hk

/-- A reserved word that no character of names follows. -/
theorem of_reserved (hk : (k, w.map Char.toLower) ∈ reserved)
    (hrest : ∀ d ∈ rest.head?, continuesName d = false) : Cut k w rest := by
  obtain ⟨hne, hall⟩ := isAlpha_of_reserved hk
  obtain ⟨c, cs, rfl⟩ := List.exists_cons_of_ne_nil hne
  have hc : startsName c = true := startsName_iff.mpr (.inl (hall c List.mem_cons_self))
  have hcs : ∀ d ∈ cs, continuesName d = true := fun d hd =>
    continuesName_of_isAlpha (hall d (List.mem_cons_of_mem _ hd))
  have hlongest := Longest.ofName hc hcs hrest
  have hfixed := hlongest.fixed (.fixed k) rfl (Word.reserved hk).accepts
  rw [(Word.ofName hc hcs).lexeme_unique (.reserved hk) hfixed] at hlongest
  exact .of_longest hlongest nofun .fixed

/-- No character of names follows a reserved word. -/
theorem head_of_reserved (h : Cut k w rest) (hk : (k, w.map Char.toLower) ∈ reserved) :
    ∀ d ∈ rest.head?, continuesName d = false := by
  cases h with
  | word hlongest _ _ =>
      obtain ⟨c, cs, rfl, hc⟩ := begins_of_reserved hk
      have hstarts : Front.letter.has c = true := startsName_iff.mpr (.inl hc)
      have hminus : c ≠ '-' := by
        rintro rfl
        cases hc
      obtain ⟨f, hword⟩ := accepts_iff_word.mp hlongest.accepts
      obtain rfl : f = .letter := hword.front_eq hstarts hminus
      exact hlongest.head_of_name hword
  | point =>
      have hpoint := (isAlpha_of_reserved hk).2 '.' (List.mem_append_right _ (List.mem_singleton_self _))
      cases hpoint

/-- What becomes a text is the text between quotes. -/
theorem eq_text {s : String} {q : Char} {body : List Char}
    (h : Cut (.text s) (q :: (body ++ [q])) rest) : s = String.ofList body := by
  generalize hw : q :: (body ++ [q]) = w at h
  cases h with
  | word hlongest _ hbecomes =>
      obtain ⟨f, hword⟩ := accepts_iff_word.mp hlongest.accepts
      generalize hk : TokenKind.text s = k at hbecomes
      cases hbecomes with
      | fixed =>
          subst hk
          cases hword.not_isGeneral
      | number => cases hk
      | name => cases hk
      | text =>
          obtain ⟨rfl, hbody⟩ := List.cons_eq_cons.mp hw
          rw [List.append_cancel_right hbody]
          exact TokenKind.text.inj hk
  | point _ hpoint hbecomes =>
      obtain ⟨rfl, -, -⟩ := hpoint
      cases hbecomes

/-- A line break, unless a line feed follows a carriage return. -/
theorem of_lineBreak (hw : w ∈ [['\r', '\n'], ['\n'], ['\r']])
    (hrest : w = ['\r'] → rest.head? ≠ some '\n') : Cut .newline w rest := by
  have hlongest : Longest (.fixed .newline) w rest := by
    simp only [List.mem_cons, List.not_mem_nil, or_false] at hw
    rcases hw with rfl | rfl | rfl
    · exact .ofLineFeed (by decide) rest
    · exact .ofLineFeed (by decide) rest
    · exact .ofReturn (hrest rfl)
  exact .of_longest hlongest nofun .fixed

/-- A word that is written as it was is cut off as it was. -/
theorem same (h : Cut k w rest) (hk : k = .newline → style = none)
    (hrest : Restyled style rest rest') : Cut k w rest' := by
  cases h with
  | @word l w rest hlongest hpoint hbecomes =>
      have hno : ∀ after, rest' = '.' :: after → ¬ TakesPoint l w after := by
        rintro after rfl ⟨rfl, hwhole, -⟩
        obtain ⟨more, rfl⟩ : ['.'] <+: rest :=
          hrest.exact_front (List.forall_mem_singleton.mpr rfl) (List.prefix_append ['.'] after)
        exact hpoint more rfl (hlongest.takesPoint hwhole)
      obtain ⟨f, hword⟩ := accepts_iff_word.mp hlongest.accepts
      cases f with
      | sign =>
          exact .word (hlongest.of_exact hword (.inl rfl) fun x => hrest.exact_front) hno hbecomes
      | number =>
          exact .word (hlongest.of_exact hword (.inr rfl) fun x => hrest.exact_front) hno hbecomes
      | lineBreak =>
          have hbreak := hword.mem_lineBreak
          cases hword
          cases hbecomes
          refine .of_lineBreak hbreak fun hreturn hfeed => ?_
          subst hreturn
          exact hlongest.head_of_return ((hrest.lineFeed_head hfeed).2 (hk rfl))
      | quote =>
          cases hword with
          | closed hq hbody => exact .of_longest (.ofText hq hbody) nofun hbecomes
          | opened => cases hbecomes
      | letter =>
          obtain ⟨c, cs, rfl, hc⟩ := hword.begins
          have hhead := hlongest.head_of_name hword
          obtain ⟨rfl, -, -⟩ := hlongest.unique (.ofName hc hword.continuesName hhead) rfl
          exact .word (.ofName hc hword.continuesName (hrest.continuesName_head hhead)) hno hbecomes
  | @point l w _ hlongest hpoint hbecomes =>
      obtain rfl := hpoint.number
      obtain ⟨f, hword⟩ := accepts_iff_word.mp hlongest.accepts
      obtain rfl : f = .number := by
        cases hword <;> rfl
      refine .point (hlongest.of_exact hword (.inr rfl) fun x hx hprefix => ?_)
        (hpoint.restyled hrest) hbecomes
      rcases x with _ | ⟨c, x⟩
      · exact List.nil_prefix
      · obtain ⟨rfl, htail⟩ := List.cons_prefix_cons.mp hprefix
        exact List.cons_prefix_cons.mpr
          ⟨rfl, hrest.exact_front (fun d hd => hx d (List.mem_cons_of_mem _ hd)) htail⟩

/-- A word that is written in another way becomes the same token. -/
theorem respelled (h : Cut k w rest) (hw : Respells style k w w')
    (hrest : Restyled style rest rest') : Cut k w' rest' := by
  cases hw with
  | same hk => exact h.same hk hrest
  | letters hk hlower =>
      exact .of_reserved (hlower ▸ hk) (hrest.continuesName_head (h.head_of_reserved hk))
  | quotes hq hbody =>
      rw [h.eq_text]
      exact .of_longest (.ofText hq hbody) nofun .text
  | @lineBreak b w hstyle =>
      have hchars : b.chars ∈ [['\r', '\n'], ['\n'], ['\r']] := by cases b <;> decide
      refine .of_lineBreak hchars fun hreturn hfeed => ?_
      obtain rfl : b = .cr := by
        cases b with
        | cr => rfl
        | _ => cases hreturn
      exact (hrest.lineFeed_head hfeed).1 hstyle

end Cut

/-- A text that is written in another way is cut into tokens of the same kinds. -/
theorem Restyled.scans {style : Option LineStyle} {cs cs' : List Char} (h : Restyled style cs cs')
    (here here' : Nat) :
    ∃ ts ts', Scans here cs (.ok ts) ∧ Scans here' cs' (.ok ts') ∧
      ts'.map (·.kind) = ts.map (·.kind) := by
  induction h generalizing here here' with
  | finish => exact ⟨_, _, .finish, .finish, rfl⟩
  | @blank c cs cs' hblank _ ih =>
      obtain ⟨ts, ts', hscans, hscans', hkinds⟩ := ih (here + c.utf8Size) (here' + c.utf8Size)
      exact ⟨ts, ts', .blank hblank hscans, .blank hblank hscans', hkinds⟩
  | @insert c cs cs' hblank _ ih =>
      obtain ⟨ts, ts', hscans, hscans', hkinds⟩ := ih here (here' + c.utf8Size)
      exact ⟨ts, ts', hscans, .blank hblank hscans', hkinds⟩
  | @word l k w w' rest rest' span hne hnext hk hw hrest ih =>
      have hcut := Cut.of_nextWord hne hnext hk
      obtain ⟨ts, ts', hscans, hscans', hkinds⟩ := ih (here + utf8Length w) (here' + utf8Length w')
      refine ⟨_, _, hcut.scans hscans, (hcut.respelled hw hrest).scans hscans', ?_⟩
      rw [List.map_cons, List.map_cons, hkinds]

end Edict

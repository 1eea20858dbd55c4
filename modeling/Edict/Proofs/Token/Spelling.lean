import Edict.Expr.Display
import Edict.Proofs.Number.Text
import Edict.Proofs.Token.Restyling

/-!
# Spelling

Scanning inverts spelling where the words are told apart by what stands between them.
`Spells w rest ts` says that the scan takes the tokens `ts` off the text `w` in front of `rest`;
texts that spell tokens are put together one after the other (`Spells.append`), so it remains to say
what may follow each single word.  Brackets, commas, colons and points may stand in front of
anything and a text ends with its quote; operators need a blank behind them; names and reserved
words need something that does not go on with a name, and numbers something that does not go on with
a number.

What stands behind a value in a spelled text is nothing, a blank, a comma or a closing bracket
(`Closes`), which ends words of every kind.

## Main definitions

* `Spells`: the scan takes some tokens off a text in front of a rest.
* `Shows`: a text spells some tokens in front of any rest that closes words.
* `IsName`: a text is a name, and no reserved word.

## Main statements

* `Spells.append`: texts that spell tokens do so one after the other.
* `Shows.operation`, `Shows.enclosed`, `Shows.commaSeparated`: the forms in which expressions are
  shown.
* `Token.spells_of_scan`: every text that is cut into tokens spells them in front of a blank or a
  minus sign.
-/

namespace Edict

open Rule

/-! ## Longest words in front of a rest -/

/-- What begins with a number is a number, maybe a malformed one. -/
theorem Word.front_of_number {f : Front} {l l' : Lexeme} {w x : List Char}
    (h : Word .number l w) (k : Word f l' (w ++ x)) : f = .number := by
  have hsecond : ∀ p ∈ signs, p.2.tail.head?.any Char.isDigit = false := by decide
  obtain ⟨c, cs, rfl, hc⟩ := h.begins
  by_cases hminus : c = '-'
  · subst hminus
    obtain ⟨d, ds, heq, hd⟩ := k.begins
    cases heq
    refine (Front.eq_of_has_minus hd).resolve_left ?_
    rintro rfl
    -- no sign has the digit behind the minus
    obtain ⟨e, es, rfl, he⟩ := h.isDigit_of_minus
    cases k with
    | sign hmem =>
        have hno : e.isDigit = false := hsecond _ hmem
        rw [hno] at he
        cases he
  · exact k.front_eq hc hminus

namespace Longest

variable {k : TokenKind} {w rest : List Char}

/-- A sign that no other sign begins with is never cut, unless it is a minus. -/
theorem ofSoleSign (h : (k, w) ∈ signs) (hminus : '-' ∉ w)
    (hsole : ∀ p ∈ signs, w <+: p.2 → p.2 = w) : Longest (.fixed k) w rest := by
  refine ⟨(Word.sign h).accepts, fun l' v hv haccepts => ?_, fun _ _ _ => rfl⟩
  obtain ⟨f, hword⟩ := accepts_iff_word.mp haccepts
  rcases List.prefix_or_prefix_of_prefix hv (List.prefix_append w rest) with hle | hlonger
  · exact hle.length_le
  · obtain ⟨c, cs, rfl, hc⟩ := (Word.sign h).begins
    obtain ⟨more, rfl⟩ := hlonger
    obtain rfl : f = .sign := hword.front_eq hc fun heq => hminus (heq ▸ List.mem_cons_self)
    cases hword with
    | sign hmem => exact (congrArg List.length (hsole _ hmem (List.prefix_append _ _))).le

/-- A sign is not cut where no characters of signs and numbers follow. -/
theorem ofSpacedSign (h : (k, w) ∈ signs) (hrest : ∀ c ∈ rest.head?, isExact c = false) :
    Longest (.fixed k) w rest := by
  have hend : Longest (.fixed k) w [] := by
    refine ⟨(Word.sign h).accepts, fun l' v hv _ => ?_, fun _ _ _ => rfl⟩
    rw [List.append_nil] at hv
    exact hv.length_le
  refine hend.of_exact (.sign h) (.inl rfl) fun x hx hprefix => ?_
  rcases rest with _ | ⟨c, rest⟩
  · exact hprefix
  · exact prefix_of_not_isExact hx hprefix (hrest c rfl) []

/-- A number is not cut where no digit, minus or point follows. -/
theorem ofNumber (h : Word .number .number w)
    (hrest : ∀ c ∈ rest.head?, c.isDigit = false ∧ c ∉ ['-', '.']) : Longest .number w rest := by
  refine ⟨h.accepts, fun l' v hv haccepts => ?_, fun l' hl' haccepts => ?_⟩
  · obtain ⟨f, hword⟩ := accepts_iff_word.mp haccepts
    rcases List.prefix_or_prefix_of_prefix hv (List.prefix_append w rest) with hle | hlonger
    · exact hle.length_le
    · obtain ⟨more, rfl⟩ := hlonger
      rcases more with _ | ⟨d, more⟩
      · rw [List.append_nil]
      · -- the longer word would be a number that goes on with the first character of `rest`
        obtain rfl := h.front_of_number hword
        obtain ⟨tail, rfl⟩ : d :: more <+: rest := (List.prefix_append_right_inj _).mp hv
        obtain ⟨hdigit, hmark⟩ := hrest d rfl
        rcases hword.mem_number d (by simp) with hd | hd
        · rw [hdigit] at hd
          cases hd
        · exact absurd hd hmark
  · obtain ⟨f, hword⟩ := accepts_iff_word.mp haccepts
    obtain rfl : f = .number := h.front_of_number (x := []) (by rwa [List.append_nil])
    rcases hword.count_point_number with ⟨rfl, -⟩ | ⟨rfl, -⟩ <;> cases hl'

end Longest

/-! ## Names -/

/-- Made like a name, and not reserved in any letter case. -/
structure IsName (s : String) : Prop where
  word : Word .letter .name s.toList
  free : ∀ k, (k, s.toList.map Char.toLower) ∉ reserved

/-- Names can be told from their characters. -/
theorem IsName.of_chars {s : String} {c : Char} {cs : List Char} (hs : s.toList = c :: cs)
    (hc : startsName c = true) (hcs : cs.all continuesName = true)
    (hfree : reserved.all (fun p => p.2 != (c :: cs).map Char.toLower) = true) : IsName s := by
  constructor
  · rw [hs]
    exact .name hc (List.all_eq_true.mp hcs)
  · rw [hs]
    intro k hk
    have hne := List.all_eq_true.mp hfree _ hk
    simp at hne

/-- A name is the longest word where no character of names follows. -/
theorem IsName.longest {s : String} (h : IsName s) {rest : List Char}
    (hrest : ∀ c ∈ rest.head?, continuesName c = false) : Longest .name s.toList rest := by
  obtain ⟨hword, hfree⟩ := h
  have hlexeme : nameLexeme s.toList = .name := by
    unfold nameLexeme
    rcases hkind : reserved? s.toList with _ | k
    · rfl
    · exact absurd (mem_reserved_of_reserved? hkind) (hfree k)
  rw [← hlexeme]
  generalize s.toList = w at hword
  cases hword with
  | name hc hcs => exact .ofName hc hcs hrest

/-- What the scan makes a name is one. -/
theorem Longest.isName {l : Lexeme} {w rest : List Char} {s : String} (h : Longest l w rest)
    (hs : l.Becomes w (.ident s)) : IsName s := by
  obtain ⟨f, hword⟩ := accepts_iff_word.mp h.accepts
  generalize hk : TokenKind.ident s = k at hs
  cases hs with
  | fixed =>
      subst hk
      cases hword.not_isGeneral
  | number => cases hk
  | text => cases hk
  | name =>
      cases hk
      rw [← String.toList_ofList (l := w)] at hword h
      refine ⟨?_, fun k hmem => ?_⟩
      · generalize (String.ofList w).toList = v at hword ⊢
        cases hword with
        | name hc hcs => exact .name hc hcs
      · cases h.fixed (.fixed k) rfl (Word.reserved hmem).accepts

/-- The names among the tokens of a text are names. -/
theorem Scans.isName {here : Nat} {cs : List Char} {r : Except ScanError (List Token)}
    (h : Scans here cs r) {ts : List Token} (hr : r = .ok ts) :
    ∀ t ∈ ts, ∀ s, t.kind = .ident s → IsName s := by
  induction h generalizing ts with
  | finish =>
      cases hr
      simp
  | blank _ _ ih => exact ih hr
  | word hlongest _ hk _ ih | point hlongest _ hk _ ih =>
      obtain ⟨more, rfl, rfl⟩ := exists_of_map_cons hr
      refine List.forall_mem_cons.mpr ⟨fun s hs => ?_, ih rfl⟩
      subst hs
      exact hlongest.isName hk
  | openText => cases hr
  | malformedNumber => cases hr
  | unexpectedChar => cases hr

/-! ## Texts that spell tokens -/

/-- The scan takes the tokens off the text in front of `rest`, wherever it stands. -/
def Spells (w rest : List Char) (ts : List Token) : Prop :=
  ∀ here, ∃ us, Takes here w rest us ∧ us.map (·.kind) = ts.map (·.kind)

/-- What is taken off a text, and then off what follows it, is taken off both. -/
theorem Takes.append {here : Nat} {v w rest : List Char} {ts us : List Token}
    (h : Takes here v (w ++ rest) ts) (k : Takes (here + utf8Length v) w rest us) :
    Takes here (v ++ w) rest (ts ++ us) := by
  generalize hafter : w ++ rest = after at h
  induction h with
  | stop => exact k
  | blank hblank _ ih =>
      rw [utf8Length_cons, ← Nat.add_assoc] at k
      exact .blank hblank (ih k hafter)
  | @word here l kind v before after ts hlongest hpoint hk _ ih =>
      subst hafter
      rw [utf8Length_append, ← Nat.add_assoc] at k
      rw [← List.append_assoc] at hlongest hpoint
      rw [List.append_assoc]
      exact .word hlongest hpoint hk (ih k rfl)
  | @point here l kind v before after ts hlongest hpoint hk _ ih =>
      subst hafter
      rw [offset_point] at k
      rw [List.append_assoc]
      rw [← List.append_assoc] at hlongest hpoint
      exact .point hlongest hpoint hk (ih k rfl)

namespace Spells

variable {v w rest : List Char} {ts us : List Token} {k : TokenKind} {span : Span}

/-- The empty text spells no tokens. -/
theorem nil : Spells [] rest [] := fun _ => ⟨[], .stop, rfl⟩

/-- Texts one after the other spell their tokens one after the other. -/
theorem append (h : Spells v (w ++ rest) ts) (k : Spells w rest us) :
    Spells (v ++ w) rest (ts ++ us) := by
  intro here
  obtain ⟨ts', htakes, hts⟩ := h here
  obtain ⟨us', htakes', hus⟩ := k (here + utf8Length v)
  exact ⟨ts' ++ us', htakes.append htakes', by rw [List.map_append, List.map_append, hts, hus]⟩

/-- A blank spells no tokens. -/
theorem blank : Spells [' '] rest [] := fun _ => ⟨[], .blank rfl .stop, rfl⟩

/-- A word that is cut off the text spells its token. -/
theorem of_cut (h : Cut k w rest) : Spells w rest [⟨k, span⟩] := by
  intro here
  cases h with
  | word hlongest hpoint hk =>
      have htakes : Takes here (w ++ []) rest _ := .word hlongest hpoint hk .stop
      rw [List.append_nil] at htakes
      exact ⟨_, htakes, rfl⟩
  | point hlongest hpoint hk => exact ⟨_, .point hlongest hpoint hk .stop, rfl⟩

/-- A text between single quotes. -/
theorem quoted {s : String} (h : '\'' ∉ s.toList) :
    Spells (Edict.quoted s).toList rest [⟨.text s, span⟩] := by
  have hlongest : Longest .quotedText ('\'' :: (s.toList ++ ['\''])) rest := .ofText (by simp) h
  have hcut : Cut _ _ rest := .of_longest hlongest nofun .text
  rw [String.ofList_toList] at hcut
  simpa [Edict.quoted] using of_cut hcut

/-- A name that no character of names follows. -/
theorem name {s : String} (h : IsName s) (hrest : ∀ c ∈ rest.head?, continuesName c = false) :
    Spells s.toList rest [⟨.ident s, span⟩] := by
  have hcut : Cut _ _ rest := .of_longest (h.longest hrest) nofun .name
  rw [String.ofList_toList] at hcut
  exact of_cut hcut

/-- The signs that may stand in front of anything. -/
def soleSymbols : List Symbol :=
  [.lparen, .rparen, .lbrace, .rbrace, .lbracket, .rbracket, .comma, .colon, .dot]

/-- A bracket, a comma, a colon or a point, in front of anything. -/
theorem sole {s : Symbol} (h : s ∈ soleSymbols) :
    Spells s.spelling.toList rest [⟨.symbol s, span⟩] := by
  have hall : ∀ s ∈ soleSymbols, (.symbol s, s.spelling.toList) ∈ signs ∧
      '-' ∉ s.spelling.toList ∧
      ∀ p ∈ signs, s.spelling.toList <+: p.2 → p.2 = s.spelling.toList := by decide
  obtain ⟨hmem, hminus, hsole⟩ := hall s h
  exact of_cut (.of_longest (.ofSoleSign hmem hminus hsole) nofun .fixed)

/-- What is written between its operands, with blanks around it. -/
def IsOperator (k : TokenKind) (s : String) : Prop :=
  (k, s.toList) ∈ signs ∨ (k, s.toList.map Char.toLower) ∈ reserved

/-- An operator and the blank behind it. -/
theorem operator {s : String} (h : IsOperator k s) :
    Spells (s.toList ++ [' ']) rest [⟨k, span⟩] := by
  have hcut : Cut k s.toList ([' '] ++ rest) := by
    rcases h with hsign | hreserved
    · refine .of_longest (.ofSpacedSign hsign ?_) nofun .fixed
      rintro _ ⟨⟩
      decide
    · refine .of_reserved hreserved ?_
      rintro _ ⟨⟩
      decide
  exact (of_cut hcut).append blank

end Spells

/-! ## Values -/

/-- What may stand behind a value: nothing, a blank, a comma or a closing bracket. -/
def Closes (rest : List Char) : Prop := ∀ c ∈ rest.head?, c ∈ [' ', ')', ']', '\x7d', ',']

namespace Closes

variable {rest : List Char}

/-- No name goes on behind a value. -/
theorem not_continuesName (h : Closes rest) : ∀ c ∈ rest.head?, continuesName c = false := by
  have hall : ∀ c ∈ [' ', ')', ']', '\x7d', ','], continuesName c = false := by
    simp [continuesName, Char.isAlphanum]
  exact fun c hc => hall c (h c hc)

/-- No number goes on behind a value. -/
theorem not_number (h : Closes rest) :
    ∀ c ∈ rest.head?, c.isDigit = false ∧ c ∉ ['-', '.'] := by
  have hall : ∀ c ∈ [' ', ')', ']', '\x7d', ','], c.isDigit = false ∧ c ∉ ['-', '.'] := by simp
  exact fun c hc => hall c (h c hc)

end Closes

/-- The text spells the tokens in front of whatever may stand behind a value. -/
def Shows (s : String) (ts : List Token) : Prop :=
  ∀ rest, Closes rest → Spells s.toList rest ts

namespace Shows

variable {s s' o : String} {ts us : List Token} {k : TokenKind} {span span' : Span}

/-- A text between single quotes. -/
theorem quoted (h : '\'' ∉ s.toList) : Shows (Edict.quoted s) [⟨.text s, span⟩] :=
  fun _ _ => .quoted h

/-- A finite number whose text reads back as the number. -/
theorem number {x : Float} (h : x.isFinite = true)
    (hread : Number.ofText? (Number.text x) = some x) :
    Shows (Number.text x) [⟨.number (.ofWritten false x), span⟩] := by
  intro rest hrest
  have hlongest : Longest .number (Number.text x).toList rest :=
    .ofNumber (Number.word_text h) hrest.not_number
  refine .of_cut (.word hlongest ?_ (Number.becomes_text h hread))
  rintro after rfl -
  exact (hrest.not_number '.' rfl).2 (by decide)

/-- A reserved word. -/
theorem reserved (h : (k, s.toList.map Char.toLower) ∈ Rule.reserved) : Shows s [⟨k, span⟩] :=
  fun _ hrest => .of_cut (.of_reserved h hrest.not_continuesName)

/-- An operator between two values. -/
theorem operation (hs : Shows s ts) (ho : Spells.IsOperator k o) (hs' : Shows s' us) :
    Shows (s ++ " " ++ o ++ " " ++ s') (ts ++ ⟨k, span⟩ :: us) := by
  intro rest hrest
  have hright : Spells (o.toList ++ [' '] ++ s'.toList) rest ([⟨k, span⟩] ++ us) :=
    (Spells.operator ho).append (hs' rest hrest)
  have hblank : Spells ([' '] ++ (o.toList ++ [' '] ++ s'.toList)) rest ([] ++ ([⟨k, span⟩] ++ us)) :=
    Spells.blank.append hright
  have hleft := (hs _ (by rintro _ ⟨⟩; decide)).append hblank
  simpa using hleft

/-- A value between brackets, in front of anything. -/
theorem enclosed {before after : Symbol} (hs : Shows s ts) (hbefore : before ∈ Spells.soleSymbols)
    (hafter : after ∈ [Symbol.rparen, .rbracket, .rbrace]) (rest : List Char) :
    Spells (before.spelling ++ s ++ after.spelling).toList rest
      (⟨.symbol before, span⟩ :: (ts ++ [⟨.symbol after, span'⟩])) := by
  have hall : ∀ a ∈ [Symbol.rparen, .rbracket, .rbrace], a ∈ Spells.soleSymbols ∧
      ∀ c ∈ a.spelling.toList.head?, c ∈ [' ', ')', ']', '\x7d', ','] := by
    simp [Spells.soleSymbols, Symbol.spelling]
  obtain ⟨hsole, hhead⟩ := hall after hafter
  have hcloses : Closes (after.spelling.toList ++ rest) := by
    obtain ⟨c, cs, hspelling⟩ : ∃ c cs, after.spelling.toList = c :: cs := by
      cases after <;> exact ⟨_, _, rfl⟩
    rw [hspelling] at hhead ⊢
    exact hhead
  have hclosing : Spells after.spelling.toList rest [⟨.symbol after, span'⟩] := .sole hsole
  have hinner := (hs _ hcloses).append hclosing
  have hopening : ∀ cs, Spells before.spelling.toList cs [⟨.symbol before, span⟩] :=
    fun _ => .sole hbefore
  simpa using (hopening _).append hinner

/-- A value in parentheses. -/
theorem parens (hs : Shows s ts) (rest : List Char) :
    Spells ("(" ++ s ++ ")").toList rest
      (⟨.symbol .lparen, span⟩ :: (ts ++ [⟨.symbol .rparen, span'⟩])) :=
  @enclosed s ts span span' .lparen .rparen hs (by decide) (by decide) rest

/-- A value in brackets. -/
theorem brackets (hs : Shows s ts) (rest : List Char) :
    Spells ("[" ++ s ++ "]").toList rest
      (⟨.symbol .lbracket, span⟩ :: (ts ++ [⟨.symbol .rbracket, span'⟩])) :=
  @enclosed s ts span span' .lbracket .rbracket hs (by decide) (by decide) rest

/-- A value in braces. -/
theorem braces (hs : Shows s ts) (rest : List Char) :
    Spells ("\x7b" ++ s ++ "\x7d").toList rest
      (⟨.symbol .lbrace, span⟩ :: (ts ++ [⟨.symbol .rbrace, span'⟩])) :=
  @enclosed s ts span span' .lbrace .rbrace hs (by decide) (by decide) rest

/-- Values with commas between them. -/
theorem commaSeparated {texts : List String} {tss : List (List Token)}
    (h : List.Forall₂ Shows texts tss) :
    Shows (Edict.commaSeparated texts) ([⟨.symbol .comma, span⟩].intercalate tss) := by
  unfold Edict.commaSeparated
  induction h with
  | nil => exact fun _ _ => .nil
  | @cons s ts texts tss hs hrest ih =>
      cases hrest with
      | nil => simpa using hs
      | @cons s' ts' texts tss hs' hrest =>
          intro rest hcloses
          rw [String.intercalate_cons_cons, List.intercalate_cons_cons]
          have hcomma : ∀ cs, Spells Symbol.comma.spelling.toList cs [⟨.symbol .comma, span⟩] :=
            fun _ => .sole (by decide)
          have hmore := (hcomma _).append (Spells.blank.append (ih rest hcloses))
          have hfirst := (hs _ (by rintro _ ⟨⟩; decide)).append hmore
          simpa [Symbol.spelling] using hfirst

end Shows

/-! ## Texts in front of blanks and of a minus -/

/-- Whether no word but a quoted one has the character behind its first: the minus and the
blanks. -/
def endsWords (c : Char) : Bool := c == '-' || isBlank c

/-- Behind its first character, a number is made of digits and points. -/
theorem Word.mem_tail_number {l : Lexeme} {w : List Char} (h : Word .number l w) :
    ∀ c ∈ w.tail, c.isDigit = true ∨ c = '.' := by
  have htail : ∀ {m cs : List Char}, m ∈ [[], ['-']] → ∀ c ∈ (m ++ cs).tail, c ∈ cs := by
    intro m cs hm c hc
    simp only [List.mem_cons, List.not_mem_nil, or_false] at hm
    rcases hm with rfl | rfl
    · exact List.mem_of_mem_tail hc
    · exact hc
  cases h with
  | whole hm hds => exact fun c hc => .inl (hds.isDigit c (htail hm c hc))
  | fraction hm hds hfs =>
      intro c hc
      have hmem := htail hm c hc
      simp only [List.mem_append, List.mem_cons] at hmem
      rcases hmem with hmem | rfl | hmem
      · exact .inl (hds.isDigit c hmem)
      · exact .inr rfl
      · exact .inl (hfs.isDigit c hmem)
  | manyPoints hm hds hfs hmore =>
      intro c hc
      have hmem := htail hm c hc
      simp only [List.mem_append, List.mem_cons] at hmem
      rcases hmem with hmem | rfl | hmem | rfl | hmem
      · exact .inl (hds.isDigit c hmem)
      · exact .inr rfl
      · exact .inl (hfs c hmem)
      · exact .inr rfl
      · simpa using hmore c hmem

/-- What ends words is in no number and goes on with no name. -/
theorem not_endsWords {c : Char} (h : endsWords c = true) :
    c.isDigit = false ∧ c ≠ '.' ∧ Rule.continuesName c = false := by
  simp only [endsWords, isBlank, Bool.or_eq_true, beq_iff_eq] at h
  rcases h with rfl | (rfl | rfl) | rfl <;> decide

/-- Only texts have blanks, or a minus behind their first character. -/
theorem Word.quote_of_endsWords {f : Front} {l : Lexeme} {w : List Char} (h : Word f l w) {c : Char}
    (hw : c ∈ w.tail) (hc : endsWords c = true) : f = .quote := by
  obtain ⟨hdigit, hpoint, hname⟩ := not_endsWords hc
  cases f with
  | sign =>
      have hsigns : ∀ p ∈ signs, p.2.tail.any endsWords = false := by decide
      cases h with
      | sign hsign =>
          have hno := List.any_eq_false.mp (hsigns _ hsign) c hw
          exact absurd hc hno
  | lineBreak =>
      have hbreaks : ∀ w ∈ [['\r', '\n'], ['\n'], ['\r']], w.tail.any endsWords = false := by decide
      have hno := List.any_eq_false.mp (hbreaks w h.mem_lineBreak) c hw
      exact absurd hc hno
  | number =>
      rcases h.mem_tail_number c hw with hd | rfl
      · simp [hdigit] at hd
      · exact absurd rfl hpoint
  | quote => rfl
  | letter =>
      obtain ⟨d, cs, rfl, -⟩ := h.begins
      have hcontinues := h.continuesName c hw
      simp [hname] at hcontinues

/-- What is taken off a text that ends is taken off it in front of a blank or a minus too. -/
theorem Takes.spells {here : Nat} {w after : List Char} {ts : List Token}
    (h : Takes here w after ts) (hafter : after = []) {c : Char} (hc : endsWords c = true)
    (rest : List Char) : Spells w (c :: rest) ts := by
  obtain ⟨hdigit, hpoint, -⟩ := not_endsWords hc
  have hlonger : ∀ {l k w before}, Longest l w before → l.Becomes w k →
      Longest l w (before ++ c :: rest) := by
    intro l k w before hlongest hk
    refine hlongest.append_cons hk (fun f l' more hword => hword.quote_of_endsWords ?_ hc) rest
    obtain ⟨d, cs, rfl⟩ := List.exists_cons_of_ne_nil hlongest.ne_nil
    simp
  induction h with
  | stop => exact .nil
  | blank hblank _ ih =>
      intro here
      obtain ⟨us, htakes, hus⟩ := ih hafter (here + _)
      exact ⟨us, .blank hblank htakes, hus⟩
  | @word here l k w before after ts hlongest hno hk _ ih =>
      subst hafter
      rw [List.append_nil] at hlongest hno
      intro here
      obtain ⟨us, htakes, hus⟩ := ih rfl (here + _)
      refine ⟨_, .word (hlonger hlongest hk) ?_ hk htakes, by simp [hus]⟩
      intro more hmore htakesPoint
      rcases before with _ | ⟨d, before⟩
      · exact hpoint (List.cons_eq_cons.mp hmore).1
      · obtain ⟨rfl, rfl⟩ := List.cons_eq_cons.mp hmore
        exact hno before rfl htakesPoint.of_append
  | @point here l k w before after ts hlongest htakesPoint hk _ ih =>
      subst hafter
      rw [List.append_nil] at hlongest htakesPoint
      intro here
      obtain ⟨us, htakes, hus⟩ := ih rfl (here + _ + 1)
      exact ⟨_, .point (hlonger hlongest hk) (htakesPoint.append_cons ⟨hdigit, hpoint⟩ rest) hk htakes,
        by simp [hus]⟩

/-- A text that is cut into tokens is cut into the same ones in front of a blank or a minus. -/
theorem Token.spells_of_scan {x : String} {ts : List Token} {span : Span}
    (h : scan x = .ok (ts ++ [⟨.eof, span⟩])) {c : Char} (hc : endsWords c = true)
    (rest : List Char) : Spells x.toList (c :: rest) ts := by
  rcases (scanFrom_eq_iff.mp h).takes with ⟨us, htakes, heq⟩ | ⟨_, _, _, _, _, _, _, heq, _⟩
  · obtain ⟨rfl, -⟩ := List.append_inj' (Except.ok.inj heq) rfl
    exact htakes.spells rfl hc rest
  · simp at heq

end Edict

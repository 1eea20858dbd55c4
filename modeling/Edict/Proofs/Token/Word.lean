import Edict.Proofs.Token.Munch
import Edict.Token.Rule

/-!
# The words of the language

`Rule.Accepts` says that some rule of the table has a word.  `Word` lists the same words outright,
without patterns, and `accepts_iff_word` shows that the two agree.  What follows is what the rules
have in common: the words of two rules begin with different characters, but for a few cases that are
told apart otherwise, so that of two general shapes no two have a word in common, and of two fixed
words only those that become the same token (`Word.lexeme_unique`).

## Main definitions

* `Rule.Accepts`: some rule of the table has a word.
* `Front`, `Word`: the ways in which words begin, and the words of each lexeme by the way they
  begin.

## Main statements

* `accepts_iff_word`: the rules have these words and no others.
* `Word.lexeme_unique`: no word has two lexemes that are both fixed, or both general.
-/

namespace Edict

/-- Whether the words of a rule are fixed, up to letter case. -/
def Lexeme.isFixed : Lexeme → Bool
  | .fixed _ => true
  | _ => false

namespace Rule

/-- Some rule of the table that leads to the lexeme has the word. -/
def Accepts (l : Lexeme) (w : List Char) : Prop :=
  ∃ r ∈ table, r.lexeme = l ∧ r.pattern.Matches w

/-- The fixed words made of signs, with the tokens that they become. -/
def signs : List (TokenKind × List Char) :=
  symbols.map (fun s => (.symbol s, s.spelling.toList)) ++
    [(.combinator .and, ['&', '&']), (.combinator .or, ['|', '|']), (.combinator .not, ['!'])]

/-- The fixed words made of letters, in lower case, with the tokens that they become. -/
def reserved : List (TokenKind × List Char) :=
  keywords.map (fun k => (.keyword k, k.spelling.toList)) ++
    [Combinator.and, .or, .not].map (fun c => (.combinator c, c.keyword.toList)) ++
    [true, false].map (fun b => (.bool b, (boolText b).toList))

end Rule

open Rule

/-- Some digits. -/
structure Digits (ds : List Char) : Prop where
  ne_nil : ds ≠ []
  isDigit : ∀ d ∈ ds, d.isDigit = true

/-- The kinds of words, by the characters that they begin with. -/
inductive Front where
  | sign
  | lineBreak
  | number
  | quote
  | letter
deriving DecidableEq

/-- All kinds of words. -/
def Front.all : List Front := [.sign, .lineBreak, .number, .quote, .letter]

/-- The characters that signs begin with. -/
def Front.signMarks : List Char :=
  ['(', ')', '\x7b', '\x7d', '[', ']', ',', ':', ';', '.', '=', '!', '<', '>', '+', '-', '*', '/',
    '&', '|']

/-- The characters that signs, line breaks and texts begin with. -/
def Front.marks : List Char := signMarks ++ ['\r', '\n', '"', '\'']

/-- Whether words of the kind may begin with the character. -/
def Front.has : Front → Char → Bool
  | .sign, c => signMarks.contains c
  | .lineBreak, c => c == '\r' || c == '\n'
  | .number, c => c == '-' || c.isDigit
  | .quote, c => c == '"' || c == '\''
  | .letter, c => startsName c

/-- The words of the language, with what they begin with and what they become. -/
inductive Word : Front → Lexeme → List Char → Prop
  | sign {k : TokenKind} {w : List Char} : (k, w) ∈ signs → Word .sign (.fixed k) w
  | lineBreak {w : List Char} :
      w ∈ [['\r', '\n'], ['\n'], ['\r']] → Word .lineBreak (.fixed .newline) w
  | whole {m ds : List Char} : m ∈ [[], ['-']] → Digits ds → Word .number .number (m ++ ds)
  | fraction {m ds fs : List Char} :
      m ∈ [[], ['-']] → Digits ds → Digits fs → Word .number .number (m ++ (ds ++ '.' :: fs))
  | manyPoints {m ds fs tail : List Char} :
      m ∈ [[], ['-']] → Digits ds → (∀ d ∈ fs, d.isDigit = true) →
      (∀ d ∈ tail, (d.isDigit || d == '.') = true) →
      Word .number .malformedNumber (m ++ (ds ++ '.' :: (fs ++ '.' :: tail)))
  | closed {q : Char} {body : List Char} :
      q ∈ ['"', '\''] → q ∉ body → Word .quote .quotedText (q :: (body ++ [q]))
  | opened {q : Char} {body : List Char} :
      q ∈ ['"', '\''] → q ∉ body → Word .quote .openText (q :: body)
  | reserved {k : TokenKind} {w : List Char} :
      (k, w.map Char.toLower) ∈ reserved → Word .letter (.fixed k) w
  | name {c : Char} {cs : List Char} :
      startsName c = true → (∀ d ∈ cs, continuesName d = true) → Word .letter .name (c :: cs)

/-! ## The words of the rules -/

namespace Rule

open Pattern

variable {w : List Char}

/-- The words of the rule for line breaks. -/
theorem matches_lineBreak : Matches lineBreak w ↔ w ∈ [['\r', '\n'], ['\n'], ['\r']] := by
  unfold lineBreak
  simp [matches_alt, matches_word]

/-- An optional minus sign. -/
theorem matches_minusSign : Matches minusSign w ↔ w ∈ [[], ['-']] := by
  unfold minusSign
  simp [matches_optional]

/-- One or more digits. -/
theorem matches_digits : Matches (atLeastOne digit) w ↔ Digits w := by
  unfold digit
  rw [matches_atLeastOne_one]
  exact ⟨fun ⟨hne, hall⟩ => ⟨hne, hall⟩, fun ⟨hne, hall⟩ => ⟨hne, hall⟩⟩

/-- Any number of digits. -/
theorem matches_many_digit : Matches (.many digit) w ↔ ∀ d ∈ w, d.isDigit = true :=
  matches_many_one

/-- A decimal point. -/
theorem matches_point : Matches point w ↔ w = ['.'] := by
  unfold point
  simp

/-- The words of the rule for numbers. -/
theorem matches_number :
    Matches number w ↔ ∃ m ds, m ∈ [[], ['-']] ∧ Digits ds ∧
      (w = m ++ ds ∨ ∃ fs, Digits fs ∧ w = m ++ (ds ++ '.' :: fs)) := by
  unfold number
  simp only [matches_seq, matches_optional, matches_minusSign, matches_digits, matches_point]
  constructor
  · rintro ⟨m, _, rfl, hm, ds, _, rfl, hds, rfl | ⟨_, fs, rfl, rfl, hfs⟩⟩
    · exact ⟨m, ds, hm, hds, .inl (by simp)⟩
    · exact ⟨m, ds, hm, hds, .inr ⟨fs, hfs, rfl⟩⟩
  · rintro ⟨m, ds, hm, hds, rfl | ⟨fs, hfs, rfl⟩⟩
    · exact ⟨m, ds, rfl, hm, ds, [], by simp, hds, .inl rfl⟩
    · exact ⟨m, _, rfl, hm, ds, _, rfl, hds, .inr ⟨['.'], fs, rfl, rfl, hfs⟩⟩

/-- The words of the rule for digits with a second point. -/
theorem matches_manyPoints :
    Matches manyPoints w ↔ ∃ m ds fs tail, m ∈ [[], ['-']] ∧ Digits ds ∧
      (∀ d ∈ fs, d.isDigit = true) ∧ (∀ d ∈ tail, (d.isDigit || d == '.') = true) ∧
      w = m ++ (ds ++ '.' :: (fs ++ '.' :: tail)) := by
  unfold manyPoints
  simp only [matches_seq, matches_minusSign, matches_digits, matches_point, matches_many_digit,
    matches_many_one]
  constructor
  · rintro ⟨m, _, rfl, hm, ds, _, rfl, hds, _, _, rfl, rfl, fs, _, rfl, hfs, _, tail, rfl, rfl, htail⟩
    exact ⟨m, ds, fs, tail, hm, hds, hfs, htail, rfl⟩
  · rintro ⟨m, ds, fs, tail, hm, hds, hfs, htail, rfl⟩
    exact ⟨m, _, rfl, hm, ds, _, rfl, hds, ['.'], _, rfl, rfl, fs, _, rfl, hfs, ['.'], tail, rfl, rfl,
      htail⟩

/-- The words of the rules for texts that are not closed. -/
theorem matches_opened {q : Char} :
    Matches (opened q) w ↔ ∃ body, q ∉ body ∧ w = q :: body := by
  unfold opened
  simp only [matches_seq, matches_one, matches_many_one]
  constructor
  · rintro ⟨_, body, rfl, ⟨c, hc, rfl⟩, hbody⟩
    refine ⟨body, fun hq => ?_, by rw [beq_iff_eq.mp hc]; rfl⟩
    simpa using hbody q hq
  · rintro ⟨body, hbody, rfl⟩
    refine ⟨[q], body, rfl, ⟨q, beq_self_eq_true q, rfl⟩, fun c hc => ?_⟩
    have hne : c ≠ q := fun h => hbody (h ▸ hc)
    simpa using hne

/-- The words of the rules for texts. -/
theorem matches_closed {q : Char} :
    Matches (closed q) w ↔ ∃ body, q ∉ body ∧ w = q :: (body ++ [q]) := by
  unfold closed
  simp only [matches_seq, matches_opened, matches_one]
  constructor
  · rintro ⟨_, _, rfl, ⟨body, hbody, rfl⟩, c, hc, rfl⟩
    exact ⟨body, hbody, by rw [beq_iff_eq.mp hc]; rfl⟩
  · rintro ⟨body, hbody, rfl⟩
    exact ⟨q :: body, [q], rfl, ⟨body, hbody, rfl⟩, q, beq_self_eq_true q, rfl⟩

/-- The words of the rule for names. -/
theorem matches_name :
    Matches name w ↔ ∃ c cs, startsName c = true ∧ (∀ d ∈ cs, continuesName d = true) ∧
      w = c :: cs := by
  unfold name
  simp only [matches_seq, matches_one, matches_many_one]
  constructor
  · rintro ⟨_, cs, rfl, ⟨c, hc, rfl⟩, hcs⟩
    exact ⟨c, cs, hc, hcs, rfl⟩
  · rintro ⟨c, cs, hc, hcs, rfl⟩
    exact ⟨[c], cs, rfl, ⟨c, hc, rfl⟩, hcs⟩

end Rule

/-- A word of a rule of the table is a word of the language. -/
theorem exists_word {l : Lexeme} {w : List Char} (h : Accepts l w) : ∃ f, Word f l w := by
  obtain ⟨r, hr, rfl, hw⟩ := h
  simp only [table, List.mem_append, List.mem_map, List.mem_cons, List.not_mem_nil, or_false] at hr
  rcases hr with (⟨s, hs, rfl⟩ | ⟨k, hk, rfl⟩) | hr
  · refine ⟨_, .sign (List.mem_append_left _ ?_)⟩
    rw [Pattern.matches_word.mp hw]
    exact List.mem_map_of_mem hs
  · refine ⟨_, .reserved (List.mem_append_left _ (List.mem_append_left _ ?_))⟩
    rw [Pattern.matches_wordAnyCase.mp hw]
    exact List.mem_map_of_mem hk
  · rcases hr with rfl | rfl | rfl | rfl | rfl | rfl | rfl | rfl | rfl | rfl | rfl | rfl | rfl |
      rfl | rfl | rfl
    -- `and`, `or`, `not`
    · exact ⟨_, .reserved (by rw [Pattern.matches_wordAnyCase.mp hw]; decide)⟩
    · exact ⟨_, .reserved (by rw [Pattern.matches_wordAnyCase.mp hw]; decide)⟩
    · exact ⟨_, .reserved (by rw [Pattern.matches_wordAnyCase.mp hw]; decide)⟩
    -- their signs
    · exact ⟨_, .sign (by rw [Pattern.matches_word.mp hw]; decide)⟩
    · exact ⟨_, .sign (by rw [Pattern.matches_word.mp hw]; decide)⟩
    · exact ⟨_, .sign (by rw [Pattern.matches_word.mp hw]; decide)⟩
    -- truth values
    · exact ⟨_, .reserved (by rw [Pattern.matches_wordAnyCase.mp hw]; decide)⟩
    · exact ⟨_, .reserved (by rw [Pattern.matches_wordAnyCase.mp hw]; decide)⟩
    · exact ⟨_, .lineBreak (matches_lineBreak.mp hw)⟩
    · obtain ⟨m, ds, hm, hds, rfl | ⟨fs, hfs, rfl⟩⟩ := matches_number.mp hw
      · exact ⟨_, .whole hm hds⟩
      · exact ⟨_, .fraction hm hds hfs⟩
    · obtain ⟨m, ds, fs, tail, hm, hds, hfs, htail, rfl⟩ := matches_manyPoints.mp hw
      exact ⟨_, .manyPoints hm hds hfs htail⟩
    · obtain ⟨body, hbody, rfl⟩ := matches_closed.mp hw
      exact ⟨_, .closed (by simp) hbody⟩
    · obtain ⟨body, hbody, rfl⟩ := matches_closed.mp hw
      exact ⟨_, .closed (by simp) hbody⟩
    · obtain ⟨body, hbody, rfl⟩ := matches_opened.mp hw
      exact ⟨_, .opened (by simp) hbody⟩
    · obtain ⟨body, hbody, rfl⟩ := matches_opened.mp hw
      exact ⟨_, .opened (by simp) hbody⟩
    · obtain ⟨c, cs, hc, hcs, rfl⟩ := matches_name.mp hw
      exact ⟨_, .name hc hcs⟩

/-- The rule of the table for a quote. -/
theorem mem_table_of_quote {q : Char} (hq : q ∈ ['"', '\'']) :
    (⟨.quotedText, closed q⟩ : Rule) ∈ table ∧ (⟨.openText, opened q⟩ : Rule) ∈ table := by
  rcases List.mem_cons.mp hq with rfl | hq
  · simp [table]
  · obtain rfl := List.mem_singleton.mp hq
    simp [table]

/-- A word of the language is one of a rule of the table. -/
theorem Word.accepts {f : Front} {l : Lexeme} {w : List Char} (h : Word f l w) : Accepts l w := by
  cases h with
  | @sign k _ h =>
      simp only [signs, List.mem_append, List.mem_map, List.mem_cons, List.not_mem_nil, or_false]
        at h
      rcases h with ⟨s, hs, heq⟩ | h
      · obtain ⟨rfl, rfl⟩ := Prod.mk.inj heq
        have hmem : ofSymbol s ∈ table :=
          List.mem_append_left _ (List.mem_append_left _ (List.mem_map_of_mem hs))
        exact ⟨ofSymbol s, hmem, rfl, Pattern.matches_word.mpr rfl⟩
      · rcases h with heq | heq | heq
        · obtain ⟨rfl, rfl⟩ := Prod.mk.inj heq
          exact ⟨ofSign .and ['&', '&'], by simp [table], rfl, Pattern.matches_word.mpr rfl⟩
        · obtain ⟨rfl, rfl⟩ := Prod.mk.inj heq
          exact ⟨ofSign .or ['|', '|'], by simp [table], rfl, Pattern.matches_word.mpr rfl⟩
        · obtain ⟨rfl, rfl⟩ := Prod.mk.inj heq
          exact ⟨ofSign .not ['!'], by simp [table], rfl, Pattern.matches_word.mpr rfl⟩
  | @reserved k _ h =>
      simp only [Rule.reserved, List.mem_append, List.mem_map] at h
      rcases h with (⟨k, hk, heq⟩ | ⟨c, hc, heq⟩) | ⟨b, hb, heq⟩
      · obtain ⟨rfl, hw⟩ := Prod.mk.inj heq
        have hmem : ofKeyword k ∈ table :=
          List.mem_append_left _ (List.mem_append_right _ (List.mem_map_of_mem hk))
        exact ⟨ofKeyword k, hmem, rfl, Pattern.matches_wordAnyCase.mpr hw.symm⟩
      · obtain ⟨rfl, hw⟩ := Prod.mk.inj heq
        refine ⟨ofCombinator c, ?_, rfl, Pattern.matches_wordAnyCase.mpr hw.symm⟩
        cases c <;> simp [table]
      · obtain ⟨rfl, hw⟩ := Prod.mk.inj heq
        refine ⟨ofBool b, ?_, rfl, Pattern.matches_wordAnyCase.mpr hw.symm⟩
        cases b <;> simp [table]
  | lineBreak h => exact ⟨⟨_, Rule.lineBreak⟩, by simp [table], rfl, matches_lineBreak.mpr h⟩
  | whole hm hds =>
      exact ⟨⟨_, Rule.number⟩, by simp [table], rfl, matches_number.mpr ⟨_, _, hm, hds, .inl rfl⟩⟩
  | fraction hm hds hfs =>
      exact ⟨⟨_, Rule.number⟩, by simp [table], rfl,
        matches_number.mpr ⟨_, _, hm, hds, .inr ⟨_, hfs, rfl⟩⟩⟩
  | manyPoints hm hds hfs htail =>
      exact ⟨⟨_, Rule.manyPoints⟩, by simp [table], rfl,
        matches_manyPoints.mpr ⟨_, _, _, _, hm, hds, hfs, htail, rfl⟩⟩
  | closed hq hbody =>
      exact ⟨_, (mem_table_of_quote hq).1, rfl, matches_closed.mpr ⟨_, hbody, rfl⟩⟩
  | opened hq hbody =>
      exact ⟨_, (mem_table_of_quote hq).2, rfl, matches_opened.mpr ⟨_, hbody, rfl⟩⟩
  | name hc hcs =>
      exact ⟨⟨_, Rule.name⟩, by simp [table], rfl, matches_name.mpr ⟨_, _, hc, hcs, rfl⟩⟩

/-- The rules of the table have exactly the words of the language. -/
theorem accepts_iff_word {l : Lexeme} {w : List Char} : Accepts l w ↔ ∃ f, Word f l w :=
  ⟨exists_word, fun ⟨_, h⟩ => h.accepts⟩

/-! ## What words begin with -/

/-- Reserved words are made of letters. -/
theorem isAlpha_of_mem_reserved {k : TokenKind} {w : List Char} (h : (k, w) ∈ Rule.reserved) :
    w ≠ [] ∧ ∀ c ∈ w, c.isAlpha = true := by
  have hall : ∀ p ∈ Rule.reserved, p.2 ≠ [] ∧ p.2.all Char.isAlpha = true := by decide
  obtain ⟨hne, hall⟩ := hall _ h
  exact ⟨hne, List.all_eq_true.mp hall⟩

/-- Letters go on with a name. -/
theorem continuesName_of_isAlpha {c : Char} (h : c.isAlpha = true) : continuesName c = true := by
  simp [continuesName, Char.isAlphanum, h]

/-- What is a letter in lower case is a letter. -/
theorem isAlpha_of_toLower {c : Char} (h : c.toLower.isAlpha = true) : c.isAlpha = true := by
  unfold Char.toLower at h
  split at h
  · rename_i hupper
    have hupper : c.isUpper = true := decide_eq_true hupper
    exact Bool.or_eq_true_iff.mpr (.inl hupper)
  · exact h

/-- A word that is reserved in lower case is made of letters. -/
theorem isAlpha_of_reserved {k : TokenKind} {w : List Char}
    (h : (k, w.map Char.toLower) ∈ Rule.reserved) : w ≠ [] ∧ ∀ c ∈ w, c.isAlpha = true := by
  obtain ⟨hne, hall⟩ := isAlpha_of_mem_reserved h
  refine ⟨fun hw => hne (by rw [hw]; rfl), fun c hc => ?_⟩
  exact isAlpha_of_toLower (hall _ (List.mem_map_of_mem hc))

/-- Signs begin with characters of signs. -/
theorem sign_begins {k : TokenKind} {w : List Char} (h : (k, w) ∈ signs) :
    ∃ c cs, w = c :: cs ∧ Front.sign.has c = true := by
  have hall : ∀ p ∈ signs, p.2.head?.any Front.sign.has = true := by decide
  have hhead : w.head?.any Front.sign.has = true := hall _ h
  rcases w with _ | ⟨c, cs⟩
  · cases hhead
  · exact ⟨c, cs, rfl, hhead⟩

/-- Numbers begin with a minus sign or a digit. -/
theorem number_begins {m ds : List Char} (hm : m ∈ [[], ['-']]) (hds : Digits ds)
    (rest : List Char) : ∃ c cs, m ++ (ds ++ rest) = c :: cs ∧ Front.number.has c = true := by
  rcases List.mem_cons.mp hm with rfl | hm
  · obtain ⟨d, ds, rfl⟩ := List.exists_cons_of_ne_nil hds.ne_nil
    refine ⟨d, _, rfl, ?_⟩
    simp [Front.has, hds.isDigit d List.mem_cons_self]
  · obtain rfl := List.mem_singleton.mp hm
    exact ⟨'-', _, rfl, rfl⟩

namespace Word

variable {f g : Front} {l l' : Lexeme} {w cs : List Char} {c : Char}

/-- Every word begins with a character of its kind. -/
theorem begins (h : Word f l w) : ∃ c cs, w = c :: cs ∧ f.has c = true := by
  cases h with
  | sign hk => exact sign_begins hk
  | lineBreak hw =>
      simp only [List.mem_cons, List.not_mem_nil, or_false] at hw
      rcases hw with rfl | rfl | rfl <;> exact ⟨_, _, rfl, rfl⟩
  | whole hm hds => simpa using number_begins hm hds []
  | fraction hm hds _ => exact number_begins hm hds _
  | manyPoints hm hds _ _ => exact number_begins hm hds _
  | closed hq _ => exact ⟨_, _, rfl, by simpa [Front.has] using hq⟩
  | opened hq _ => exact ⟨_, _, rfl, by simpa [Front.has] using hq⟩
  | reserved hk =>
      obtain ⟨hne, hall⟩ := isAlpha_of_reserved hk
      obtain ⟨c, cs, rfl⟩ := List.exists_cons_of_ne_nil hne
      refine ⟨c, cs, rfl, ?_⟩
      simp [Front.has, startsName, hall c List.mem_cons_self]
  | name hc _ => exact ⟨_, _, rfl, hc⟩

/-- No word is empty. -/
theorem ne_nil (h : Word f l w) : w ≠ [] := by
  obtain ⟨c, cs, rfl, -⟩ := h.begins
  exact List.cons_ne_nil c cs

/-- The words that begin with a letter go on as names. -/
theorem continuesName (h : Word .letter l (c :: cs)) : ∀ d ∈ cs, Rule.continuesName d = true := by
  cases h with
  | reserved hk =>
      intro d hd
      exact continuesName_of_isAlpha ((isAlpha_of_reserved hk).2 d (List.mem_cons_of_mem _ hd))
  | name _ hcs => exact hcs

end Word

/-- Letters are no digits. -/
theorem isDigit_of_isAlpha {c : Char} (h : c.isAlpha = true) : c.isDigit = false := by
  refine Bool.eq_false_iff.mpr fun hdigit => ?_
  have hle : c.val ≤ '9'.val := of_decide_eq_true (Bool.and_eq_true_iff.mp hdigit).2
  -- capital letters and small letters have larger codes than digits
  rcases Bool.or_eq_true_iff.mp h with hletter | hletter
  · have hge : 'A'.val ≤ c.val := (of_decide_eq_true hletter).1
    exact absurd (UInt32.le_trans hge hle) (by decide)
  · have hge : 'a'.val ≤ c.val := of_decide_eq_true (Bool.and_eq_true_iff.mp hletter).1
    exact absurd (UInt32.le_trans hge hle) (by decide)

/-- What begins a name is a letter or one of three signs. -/
theorem startsName_iff {c : Char} :
    startsName c = true ↔ c.isAlpha = true ∨ c ∈ ['_', '$', '@'] := by
  simp [startsName, or_assoc]

/-- What begins a name is no digit. -/
theorem isDigit_of_startsName {c : Char} (h : startsName c = true) : c.isDigit = false := by
  have hsigns : ∀ c ∈ ['_', '$', '@'], c.isDigit = false := by simp
  rcases startsName_iff.mp h with h | h
  · exact isDigit_of_isAlpha h
  · exact hsigns c h

namespace Front

variable {f g : Front} {c : Char}

/-- Every kind is one of all. -/
theorem mem_all (f : Front) : f ∈ all := by
  cases f <;> decide

/-- Whatever is no mark begins numbers or names. -/
theorem number_or_letter (h : f.has c = true) (hc : c ∉ marks) : f = .number ∨ f = .letter := by
  cases f with
  | sign => exact absurd (List.mem_append_left _ (List.contains_iff_mem.mp h)) hc
  | lineBreak =>
      refine absurd ?_ hc
      rcases Bool.or_eq_true_iff.mp h with h | h
      all_goals
        rw [beq_iff_eq.mp h]
        decide
  | number => exact .inl rfl
  | quote =>
      refine absurd ?_ hc
      rcases Bool.or_eq_true_iff.mp h with h | h
      all_goals
        rw [beq_iff_eq.mp h]
        decide
  | letter => exact .inr rfl

/-- No number begins with what a name begins with. -/
theorem not_number_and_letter (hn : number.has c = true) (hl : letter.has c = true) : False := by
  rcases Bool.or_eq_true_iff.mp hn with h | h
  · rw [beq_iff_eq.mp h] at hl
    cases hl
  · rw [isDigit_of_startsName hl] at h
    cases h

/-- But for the minus sign, a character begins one kind of words only. -/
theorem eq_of_has (hf : f.has c = true) (hg : g.has c = true) (hc : c ≠ '-') : f = g := by
  have hmarks : ∀ f ∈ all, ∀ g ∈ all,
      f = g ∨ marks.all (fun c => c == '-' || !f.has c || !g.has c) = true := by decide
  by_cases hmem : c ∈ marks
  · rcases hmarks f f.mem_all g g.mem_all with heq | hall
    · exact heq
    · have := List.all_eq_true.mp hall c hmem
      simp [hf, hg, hc] at this
  · rcases number_or_letter hf hmem with rfl | rfl
    · rcases number_or_letter hg hmem with rfl | rfl
      · rfl
      · exact (not_number_and_letter hf hg).elim
    · rcases number_or_letter hg hmem with rfl | rfl
      · exact (not_number_and_letter hg hf).elim
      · rfl

/-- A minus sign begins signs and numbers. -/
theorem eq_of_has_minus (h : f.has '-' = true) : f = .sign ∨ f = .number := by
  cases f with
  | sign => exact .inl rfl
  | number => exact .inr rfl
  | _ => cases h

/-- Blanks begin no words. -/
theorem isBlank_of_has (h : f.has c = true) : isBlank c = false := by
  have hblanks : ∀ f ∈ all, [' ', '\t', '\x0c'].any f.has = false := by decide
  rcases hblank : isBlank c
  · rfl
  · have hmem : c ∈ [' ', '\t', '\x0c'] := by simpa [isBlank, or_assoc] using hblank
    exact absurd h (List.any_eq_false.mp (hblanks f f.mem_all) c hmem)

end Front

namespace Word

variable {f g : Front} {l l' : Lexeme} {w cs : List Char} {c : Char}

/-- No word begins with a blank. -/
theorem isBlank_front (h : Word f l (c :: cs)) : isBlank c = false := by
  obtain ⟨d, ds, heq, hd⟩ := h.begins
  cases heq
  exact Front.isBlank_of_has hd

/-- But for the minus sign, what a word begins with says of what kind it is. -/
theorem front_eq (h : Word f l (c :: cs)) (hg : g.has c = true) (hc : c ≠ '-') : f = g := by
  obtain ⟨d, ds, heq, hd⟩ := h.begins
  cases heq
  exact Front.eq_of_has hd hg hc

/-! ## No word becomes two things -/

/-- There is no point in a sign or in digits. -/
theorem count_point {m ds : List Char} (hm : m ∈ [[], ['-']]) (hds : ∀ d ∈ ds, d.isDigit = true)
    (rest : List Char) : (m ++ (ds ++ rest)).count '.' = rest.count '.' := by
  have hminus : ∀ m ∈ [[], ['-']], m.count '.' = 0 := by decide
  have hdigits : ds.count '.' = 0 := by
    refine List.count_eq_zero.mpr fun hpoint => ?_
    have := hds '.' hpoint
    cases this
  rw [List.count_append, List.count_append, hminus m hm, hdigits, Nat.zero_add, Nat.zero_add]

/-- A number has at most one point, a malformed one at least two. -/
theorem count_point_number (h : Word .number l w) :
    l = .number ∧ w.count '.' ≤ 1 ∨ l = .malformedNumber ∧ 2 ≤ w.count '.' := by
  cases h with
  | @whole m ds hm hds =>
      have := count_point hm hds.isDigit []
      rw [List.append_nil] at this
      exact .inl ⟨rfl, by simp [this]⟩
  | @fraction m ds fs hm hds hfs =>
      have := count_point (List.mem_cons_self : [] ∈ [[], ['-']]) hfs.isDigit []
      rw [List.append_nil, List.nil_append] at this
      refine .inl ⟨rfl, ?_⟩
      rw [count_point hm hds.isDigit, List.count_cons_self, this]
      exact Nat.le_refl 1
  | @manyPoints m ds fs tail hm hds hfs htail =>
      have := count_point (List.mem_cons_self : [] ∈ [[], ['-']]) hfs ('.' :: tail)
      rw [List.nil_append] at this
      refine .inr ⟨rfl, ?_⟩
      rw [count_point hm hds.isDigit, List.count_cons_self, this, List.count_cons_self]
      omega

/-- A text is either closed, by its second quote, or it has no second quote. -/
theorem count_quote (h : Word .quote l w) :
    l = .quotedText ∧ w.count (w.headD ' ') = 2 ∨ l = .openText ∧ w.count (w.headD ' ') = 1 := by
  cases h with
  | closed hq hbody =>
      refine .inl ⟨rfl, ?_⟩
      simp [List.count_eq_zero.mpr hbody]
  | opened hq hbody =>
      refine .inr ⟨rfl, ?_⟩
      simp [List.count_eq_zero.mpr hbody]

/-- Two words that are the same are of the same kind, if both are fixed or both are not. -/
theorem front_unique (h : Word f l w) (k : Word g l' w) (hfixed : l.isFixed = l'.isFixed) :
    f = g := by
  obtain ⟨c, cs, rfl, hf⟩ := h.begins
  by_cases hc : c = '-'
  · subst hc
    obtain ⟨d, ds, heq, hg⟩ := k.begins
    cases heq
    rcases Front.eq_of_has_minus hf with rfl | rfl <;>
      rcases Front.eq_of_has_minus hg with rfl | rfl
    · rfl
    · -- signs are fixed, numbers are not
      cases h
      rcases k.count_point_number with ⟨rfl, -⟩ | ⟨rfl, -⟩ <;> cases hfixed
    · cases k
      rcases h.count_point_number with ⟨rfl, -⟩ | ⟨rfl, -⟩ <;> cases hfixed
    · rfl
  · exact (k.front_eq hf hc).symm

/-- Two words that are the same become the same, if both are fixed or both are not. -/
theorem lexeme_unique (h : Word f l w) (k : Word g l' w) (hfixed : l.isFixed = l'.isFixed) :
    l = l' := by
  obtain rfl := h.front_unique k hfixed
  cases f with
  | sign =>
      have hsigns : ∀ p ∈ signs, ∀ q ∈ signs, p.2 = q.2 → p.1 = q.1 := by decide
      cases h with
      | sign h =>
          cases k with
          | sign k => exact congrArg Lexeme.fixed (hsigns _ h _ k rfl)
  | lineBreak =>
      cases h
      cases k
      rfl
  | number =>
      rcases h.count_point_number with ⟨rfl, h⟩ | ⟨rfl, h⟩ <;>
        rcases k.count_point_number with ⟨rfl, k⟩ | ⟨rfl, k⟩
      · rfl
      · omega
      · omega
      · rfl
  | quote =>
      rcases h.count_quote with ⟨rfl, h⟩ | ⟨rfl, h⟩ <;>
        rcases k.count_quote with ⟨rfl, k⟩ | ⟨rfl, k⟩
      · rfl
      · omega
      · omega
      · rfl
  | letter =>
      have hreserved : ∀ p ∈ Rule.reserved, ∀ q ∈ Rule.reserved, p.2 = q.2 → p.1 = q.1 := by decide
      cases h with
      | reserved h =>
          cases k with
          | reserved k => exact congrArg Lexeme.fixed (hreserved _ h _ k rfl)
          | name => cases hfixed
      | name =>
          cases k with
          | reserved => cases hfixed
          | name => rfl

end Word

end Edict

import Edict.Proofs.Token.Word

/-!
# The longest word at the front of a text

`Longest l w rest` says what it is to take the word `w` off a text: some rule has it, no rule has a
longer one there, and if a rule for fixed words has it then it counts as a fixed word.  There is at
most one such word, with one lexeme, and `Rule.longest` finds it if there is one
(`Longest.longest_eq`, `longest_spec`).

Then come the words whose ends can be seen without looking at rules: a name ends where no character
of names follows, a sign of several characters is never cut, a text ends at its second quote.

## Main definitions

* `Longest`: the longest word at the front of a text.
* `Rule.reserved?`: the token of a reserved word, in any letter case.

## Main statements

* `Longest.unique`, `Longest.longest_eq`: there is one such word, and the search finds it.
* `longest_spec`: what the search finds is such a word, for every text.
* `Longest.ofName`, `Longest.ofSign`, `Longest.ofText`: names, signs and texts whose ends can be
  seen.
-/

namespace Edict

open Rule

/-- The word that is taken off the front of `w ++ rest`, and what it becomes. -/
structure Longest (l : Lexeme) (w rest : List Char) : Prop where
  accepts : Accepts l w
  longest : ∀ l' v, v <+: w ++ rest → Accepts l' v → v.length ≤ w.length
  fixed : ∀ l', l'.isFixed = true → Accepts l' w → l.isFixed = true

namespace Longest

variable {l l' : Lexeme} {w w' rest rest' : List Char}

/-- The word that is taken is not empty. -/
theorem ne_nil (h : Longest l w rest) : w ≠ [] := by
  obtain ⟨f, hw⟩ := accepts_iff_word.mp h.accepts
  exact hw.ne_nil

/-- The word that is taken begins with no blank. -/
theorem exists_cons (h : Longest l w rest) : ∃ c cs, w = c :: cs ∧ isBlank c = false := by
  obtain ⟨f, hw⟩ := accepts_iff_word.mp h.accepts
  obtain ⟨c, cs, rfl⟩ := List.exists_cons_of_ne_nil hw.ne_nil
  exact ⟨c, cs, rfl, hw.isBlank_front⟩

/-- At most one word is taken off a text, and it becomes one thing. -/
theorem unique (h : Longest l w rest) (k : Longest l' w' rest') (heq : w ++ rest = w' ++ rest') :
    l = l' ∧ w = w' ∧ rest = rest' := by
  have hle : w.length ≤ w'.length := by
    refine k.longest l w ?_ h.accepts
    rw [← heq]
    exact List.prefix_append w rest
  have hge : w'.length ≤ w.length := by
    refine h.longest l' w' ?_ k.accepts
    rw [heq]
    exact List.prefix_append w' rest'
  obtain ⟨rfl, rfl⟩ := List.append_inj heq (Nat.le_antisymm hle hge)
  refine ⟨?_, rfl, rfl⟩
  obtain ⟨f, hw⟩ := accepts_iff_word.mp h.accepts
  obtain ⟨g, kw⟩ := accepts_iff_word.mp k.accepts
  refine hw.lexeme_unique kw (Bool.eq_iff_iff.mpr ⟨fun hl => ?_, fun hl' => ?_⟩)
  · exact k.fixed l hl h.accepts
  · exact h.fixed l' hl' k.accepts

end Longest

/-! ## The search through the table -/

namespace Rule

/-- The rules for fixed words. -/
def fixedRules : List Rule :=
  symbols.map ofSymbol ++ keywords.map ofKeyword ++
    [ofCombinator .and, ofCombinator .or, ofCombinator .not,
      ofSign .and ['&', '&'], ofSign .or ['|', '|'], ofSign .not ['!'],
      ofBool true, ofBool false, ⟨.fixed .newline, lineBreak⟩]

/-- The rules for general shapes. -/
def shapes : List Rule :=
  [⟨.number, number⟩, ⟨.malformedNumber, manyPoints⟩,
    ⟨.quotedText, closed '"'⟩, ⟨.quotedText, closed '\''⟩,
    ⟨.openText, opened '"'⟩, ⟨.openText, opened '\''⟩,
    ⟨.name, name⟩]

/-- The rules for fixed words stand before the general shapes. -/
theorem table_eq : table = fixedRules ++ shapes := rfl

/-- The rules for fixed words lead to fixed tokens. -/
theorem isFixed_of_mem_fixedRules {r : Rule} (h : r ∈ fixedRules) : r.lexeme.isFixed = true := by
  simp only [fixedRules, List.mem_append, List.mem_map, List.mem_cons, List.not_mem_nil, or_false]
    at h
  rcases h with (⟨s, -, rfl⟩ | ⟨k, -, rfl⟩) | h
  · rfl
  · rfl
  · rcases h with rfl | rfl | rfl | rfl | rfl | rfl | rfl | rfl | rfl <;> rfl

/-- The general shapes do not. -/
theorem not_isFixed_of_mem_shapes {r : Rule} (h : r ∈ shapes) : r.lexeme.isFixed = false := by
  simp only [shapes, List.mem_cons, List.not_mem_nil, or_false] at h
  rcases h with rfl | rfl | rfl | rfl | rfl | rfl | rfl <;> rfl

/-- The search from a first candidate on. -/
def longestFrom (cs : List Char) (best : Lexeme × Nat) (rules : List Rule) : Lexeme × Nat :=
  rules.foldl (fun best r => better best (r.lexeme, r.pattern.munch cs)) best

/-- The search finds nothing shorter than any candidate, and it keeps the first one unless another
is longer. -/
theorem longestFrom_spec (cs : List Char) (best : Lexeme × Nat) (rules : List Rule) :
    (∀ r ∈ rules, r.pattern.munch cs ≤ (longestFrom cs best rules).2) ∧
      best.2 ≤ (longestFrom cs best rules).2 ∧
      (longestFrom cs best rules = best ∨ best.2 < (longestFrom cs best rules).2 ∧
        ∃ r ∈ rules, longestFrom cs best rules = (r.lexeme, r.pattern.munch cs)) := by
  induction rules generalizing best with
  | nil => exact ⟨nofun, Nat.le_refl _, .inl rfl⟩
  | cons r rules ih =>
      obtain ⟨hall, hbest, hfound⟩ := ih (better best (r.lexeme, r.pattern.munch cs))
      have hstep : longestFrom cs best (r :: rules) =
          longestFrom cs (better best (r.lexeme, r.pattern.munch cs)) rules := rfl
      rw [hstep]
      by_cases hlt : best.2 < r.pattern.munch cs
      · have hbetter : better best (r.lexeme, r.pattern.munch cs) =
            (r.lexeme, r.pattern.munch cs) := if_pos hlt
        rw [hbetter] at hall hbest hfound ⊢
        refine ⟨List.forall_mem_cons.mpr ⟨hbest, hall⟩, by omega, .inr ?_⟩
        rcases hfound with hsame | ⟨hmore, r', hr', heq⟩
        · rw [hsame]
          exact ⟨hlt, r, List.mem_cons_self, rfl⟩
        · exact ⟨by omega, r', List.mem_cons_of_mem _ hr', heq⟩
      · have hbetter : better best (r.lexeme, r.pattern.munch cs) = best := if_neg hlt
        rw [hbetter] at hall hbest hfound ⊢
        refine ⟨List.forall_mem_cons.mpr ⟨by omega, hall⟩, hbest, ?_⟩
        rcases hfound with hsame | ⟨hmore, r', hr', heq⟩
        · exact .inl hsame
        · exact .inr ⟨hmore, r', List.mem_cons_of_mem _ hr', heq⟩

/-- A word that some rule has is no longer than what the search finds. -/
theorem length_le_longest {cs w : List Char} {l : Lexeme} (hw : w <+: cs) (h : Accepts l w) :
    w.length ≤ (longest table cs).2 := by
  obtain ⟨r, hr, -, hmatch⟩ := h
  exact Nat.le_trans (Pattern.length_le_munch hw hmatch)
    ((longestFrom_spec cs (.name, 0) table).1 r hr)

/-- What the search finds is a fixed word, if a rule for fixed words has it. -/
theorem isFixed_longest {cs w : List Char} {l : Lexeme} (hw : w <+: cs) (h : Accepts l w)
    (hl : l.isFixed = true) (hlength : (longest table cs).2 ≤ w.length) :
    (longest table cs).1.isFixed = true := by
  obtain ⟨r, hr, rfl, hmatch⟩ := h
  have hr : r ∈ fixedRules := by
    rw [table_eq] at hr
    refine (List.mem_append.mp hr).resolve_right fun hshape => ?_
    rw [not_isFixed_of_mem_shapes hshape] at hl
    cases hl
  have hmunch : w.length ≤ r.pattern.munch cs := Pattern.length_le_munch hw hmatch
  have hsplit : longest table cs = longestFrom cs (longestFrom cs (.name, 0) fixedRules) shapes := by
    unfold longest longestFrom
    rw [table_eq, List.foldl_append]
  obtain ⟨hall, -, hfixed⟩ := longestFrom_spec cs (.name, 0) fixedRules
  have hbest := hall r hr
  obtain ⟨-, -, hfound⟩ := longestFrom_spec cs (longestFrom cs (.name, 0) fixedRules) shapes
  rw [← hsplit] at hfound
  rcases hfound with hsame | ⟨hmore, -⟩
  · rw [hsame]
    rcases hfixed with hnone | ⟨-, r', hr', heq⟩
    · -- the word is not empty, so one was found
      have hne := (accepts_iff_word.mp ⟨r, by rw [table_eq]; exact List.mem_append_left _ hr, rfl,
        hmatch⟩).elim fun _ hword => hword.ne_nil
      have hpos := List.length_pos_iff.mpr hne
      rw [hnone] at hbest
      omega
    · rw [heq]
      exact isFixed_of_mem_fixedRules hr'
  · omega

end Rule

/-- At the front of a text there is no word, or one that is taken; the search finds it. -/
theorem longest_spec (cs : List Char) :
    (Rule.longest table cs).2 = 0 ∧ (∀ l w, w <+: cs → ¬ Accepts l w) ∨
      ∃ l w rest, cs = w ++ rest ∧ Rule.longest table cs = (l, w.length) ∧ Longest l w rest := by
  rcases hfound : Rule.longest table cs with ⟨l, n⟩
  by_cases hn : n = 0
  · subst hn
    refine .inl ⟨rfl, fun l' w hw h => ?_⟩
    obtain ⟨f, hword⟩ := accepts_iff_word.mp h
    have hle := length_le_longest hw h
    have hpos := List.length_pos_iff.mpr hword.ne_nil
    rw [hfound] at hle
    omega
  · have hle : n ≤ cs.length := by
      have := longest_le_length table cs
      rwa [hfound] at this
    have htake : (cs.take n).length = n := List.length_take_of_le hle
    refine .inr ⟨l, cs.take n, cs.drop n, (List.take_append_drop n cs).symm, by rw [htake], ?_⟩
    obtain ⟨-, -, hfrom⟩ := longestFrom_spec cs (.name, 0) table
    rw [show longestFrom cs (.name, 0) table = (l, n) from hfound] at hfrom
    obtain ⟨r, hr, heq⟩ : ∃ r ∈ table, (l, n) = (r.lexeme, r.pattern.munch cs) := by
      rcases hfrom with heq | ⟨-, hr⟩
      · cases heq
        exact absurd rfl hn
      · exact hr
    obtain ⟨rfl, rfl⟩ := Prod.mk.inj heq
    constructor
    · exact ⟨r, hr, rfl, Pattern.matches_take_munch _ _ (Nat.pos_of_ne_zero hn)⟩
    · intro l' v hv h
      rw [List.take_append_drop] at hv
      have hle := length_le_longest hv h
      rwa [hfound, ← htake] at hle
    · intro l' hl' h
      have hfixed := isFixed_longest (List.take_prefix _ cs) h hl'
      rw [hfound, htake] at hfixed
      exact hfixed (Nat.le_refl _)

/-- The search finds the word that is taken. -/
theorem Longest.longest_eq {l : Lexeme} {w rest : List Char} (h : Longest l w rest) :
    Rule.longest table (w ++ rest) = (l, w.length) := by
  rcases longest_spec (w ++ rest) with ⟨-, hnone⟩ | ⟨l', w', rest', hcs, hfound, h'⟩
  · exact absurd h.accepts (hnone l w (List.prefix_append w rest))
  · obtain ⟨rfl, rfl, rfl⟩ := h.unique h' hcs
    exact hfound

/-! ## Names -/

namespace Rule

/-- The fixed token of a word made of letters, if it has one. -/
def reserved? (w : List Char) : Option TokenKind :=
  (reserved.find? fun p => p.2 == w.map Char.toLower).map (·.1)

/-- What a word made like a name becomes. -/
def nameLexeme (w : List Char) : Lexeme := (reserved? w).elim .name .fixed

/-- A word with a fixed token is reserved. -/
theorem mem_reserved_of_reserved? {w : List Char} {k : TokenKind} (h : reserved? w = some k) :
    (k, w.map Char.toLower) ∈ reserved := by
  obtain ⟨p, hp, rfl⟩ := Option.map_eq_some_iff.mp h
  have hspelling := List.find?_some hp
  rw [beq_iff_eq] at hspelling
  have hmem := List.mem_of_find?_eq_some hp
  rwa [← hspelling]

/-- A word without a fixed token is not reserved. -/
theorem not_mem_reserved_of_reserved? {w : List Char} {k : TokenKind} (h : reserved? w = none) :
    (k, w.map Char.toLower) ∉ reserved := by
  intro hmem
  have hnone := List.find?_eq_none.mp (Option.map_eq_none_iff.mp h) _ hmem
  simp at hnone

end Rule

/-- A word made like a name is one of the language. -/
theorem Word.ofName {c : Char} {cs : List Char} (hc : startsName c = true)
    (hcs : ∀ d ∈ cs, Rule.continuesName d = true) :
    Word .letter (nameLexeme (c :: cs)) (c :: cs) := by
  unfold Rule.nameLexeme
  rcases hkind : reserved? (c :: cs) with _ | k
  · exact .name hc hcs
  · exact .reserved (mem_reserved_of_reserved? hkind)

/-- A name ends where no character of names follows. -/
theorem Longest.ofName {c : Char} {cs rest : List Char} (hc : startsName c = true)
    (hcs : ∀ d ∈ cs, continuesName d = true) (hrest : ∀ d ∈ rest.head?, continuesName d = false) :
    Longest (nameLexeme (c :: cs)) (c :: cs) rest := by
  have hminus : c ≠ '-' := by
    rintro rfl
    cases hc
  constructor
  · exact (Word.ofName hc hcs).accepts
  · intro l' v hv h
    obtain ⟨f, hword⟩ := accepts_iff_word.mp h
    by_cases hlong : v.length ≤ (c :: cs).length
    · exact hlong
    · -- a longer word goes on as a name with the first character of `rest`
      obtain ⟨more, rfl⟩ : (c :: cs) <+: v :=
        List.prefix_of_prefix_length_le (List.prefix_append _ rest) hv (by omega)
      obtain rfl : f = .letter := hword.front_eq hc hminus
      rcases more with _ | ⟨d, more⟩
      · simp at hlong
      · have hd : continuesName d = true := hword.continuesName d (by simp)
        obtain ⟨tail, rfl⟩ : d :: more <+: rest := (List.prefix_append_right_inj _).mp hv
        rw [hrest d rfl] at hd
        cases hd
  · intro l' hl' h
    obtain ⟨f, hword⟩ := accepts_iff_word.mp h
    obtain rfl : f = .letter := hword.front_eq hc hminus
    cases hword with
    | reserved hmem =>
        unfold nameLexeme
        rcases hkind : reserved? (c :: cs) with _ | k
        · exact absurd hmem (not_mem_reserved_of_reserved? hkind)
        · rfl
    | name => cases hl'

/-! ## Signs of several characters -/

/-- A number that begins with a minus sign goes on with a digit. -/
theorem Word.isDigit_of_minus {l : Lexeme} {w : List Char} (h : Word .number l ('-' :: w)) :
    ∃ d ds, w = d :: ds ∧ d.isDigit = true := by
  have hstart : ∀ {m ds more : List Char}, m ∈ [[], ['-']] → Digits ds →
      '-' :: w = m ++ (ds ++ more) → ∃ d ds, w = d :: ds ∧ d.isDigit = true := by
    intro m ds more hm hds heq
    obtain ⟨d, ds, rfl⟩ := List.exists_cons_of_ne_nil hds.ne_nil
    have hd := hds.isDigit d List.mem_cons_self
    rcases List.mem_cons.mp hm with rfl | hm
    · obtain ⟨rfl, -⟩ := List.cons_eq_cons.mp heq
      cases hd
    · obtain rfl := List.mem_singleton.mp hm
      obtain ⟨-, rfl⟩ := List.cons_eq_cons.mp heq
      exact ⟨d, _, rfl, hd⟩
  generalize hv : '-' :: w = v at h
  cases h with
  | whole hm hds => exact hstart hm hds (by rw [hv, List.append_nil])
  | fraction hm hds _ => exact hstart hm hds hv
  | manyPoints hm hds _ _ => exact hstart hm hds hv

/-- A sign of several characters is never cut, whatever follows it. -/
theorem Longest.ofSign {k : TokenKind} {w rest : List Char} (h : (k, w) ∈ signs)
    (hlong : 2 ≤ w.length) : Longest (.fixed k) w rest := by
  have hshort : ∀ p ∈ signs, p.2.length ≤ 2 := by decide
  have hsecond : ∀ p ∈ signs, p.2.tail.head?.any Char.isDigit = false := by decide
  constructor
  · exact (Word.sign h).accepts
  · intro l' v hv haccepts
    obtain ⟨f, hword⟩ := accepts_iff_word.mp haccepts
    obtain ⟨c, v, rfl⟩ := List.exists_cons_of_ne_nil hword.ne_nil
    rcases w with _ | ⟨a, _ | ⟨b, w⟩⟩
    · simp at hlong
    · simp at hlong
    · obtain ⟨rfl, hrest⟩ := List.cons_prefix_cons.mp hv
      have hf : f = .sign := by
        obtain ⟨a, as, heq, hhas⟩ := (Word.sign h).begins
        cases heq
        by_cases hminus : c = '-'
        · subst hminus
          obtain ⟨d, ds, heq, hd⟩ := hword.begins
          cases heq
          refine (Front.eq_of_has_minus hd).resolve_right ?_
          rintro rfl
          -- a digit would have to stand where the second character of the sign is
          obtain ⟨e, es, rfl, he⟩ := hword.isDigit_of_minus
          obtain ⟨heq, -⟩ := List.cons_prefix_cons.mp hrest
          have hb : b.isDigit = false := hsecond _ h
          rw [heq, hb] at he
          cases he
        · exact hword.front_eq hhas hminus
      subst hf
      cases hword with
      | sign hk => exact Nat.le_trans (hshort _ hk) hlong
  · exact fun l' _ _ => rfl

/-! ## Texts -/

/-- A word that begins with a quote has no more characters before its second one than there are. -/
theorem Word.length_le_of_quote {f : Front} {l : Lexeme} {q : Char} {body v rest : List Char}
    (hq : q ∈ ['"', '\'']) (hbody : q ∉ body) (hv : v <+: q :: (body ++ q :: rest))
    (h : Word f l v) : v.length ≤ body.length + 2 := by
  have hhas : Front.quote.has q = true := by simpa [Front.has] using hq
  have hminus : q ≠ '-' := by
    rintro rfl
    cases hhas
  obtain ⟨c, v, rfl⟩ := List.exists_cons_of_ne_nil h.ne_nil
  obtain ⟨rfl, hv⟩ := List.cons_prefix_cons.mp hv
  obtain rfl : f = .quote := h.front_eq hhas hminus
  -- what has no quote in it does not reach beyond the second one
  have hle : ∀ w : List Char, w <+: body ++ c :: rest → c ∉ w → w.length ≤ body.length := by
    intro w hw hc
    by_cases hlong : w.length ≤ body.length
    · exact hlong
    · obtain ⟨more, rfl⟩ : body <+: w :=
        List.prefix_of_prefix_length_le (List.prefix_append _ _) hw (by omega)
      rcases more with _ | ⟨d, more⟩
      · simp at hlong
      · obtain ⟨rfl, -⟩ := List.cons_prefix_cons.mp ((List.prefix_append_right_inj _).mp hw)
        simp at hc
  cases h with
  | @closed _ body' _ hbody' =>
      have := hle body' ((List.prefix_append body' [c]).trans hv) hbody'
      simp
      omega
  | opened _ hbody' =>
      have := hle v hv hbody'
      simp
      omega

/-- No fixed word begins with a quote. -/
theorem Word.not_isFixed_of_quote {f : Front} {l : Lexeme} {q : Char} {v : List Char}
    (hq : q ∈ ['"', '\'']) (h : Word f l (q :: v)) : l.isFixed = false := by
  have hhas : Front.quote.has q = true := by simpa [Front.has] using hq
  have hminus : q ≠ '-' := by
    rintro rfl
    cases hhas
  obtain rfl : f = .quote := h.front_eq hhas hminus
  cases h <;> rfl

/-- A text ends at its second quote. -/
theorem Longest.ofText {q : Char} {body rest : List Char} (hq : q ∈ ['"', '\''])
    (hbody : q ∉ body) : Longest .quotedText (q :: (body ++ [q])) rest := by
  constructor
  · exact (Word.closed hq hbody).accepts
  · intro l' v hv h
    obtain ⟨f, hword⟩ := accepts_iff_word.mp h
    have hprefix : v <+: q :: (body ++ q :: rest) := by simpa using hv
    have hle := hword.length_le_of_quote hq hbody hprefix
    simpa using hle
  · intro l' hl' h
    obtain ⟨f, hword⟩ := accepts_iff_word.mp h
    rw [hword.not_isFixed_of_quote hq] at hl'
    cases hl'

/-- A text without a second quote goes to the end. -/
theorem Longest.ofOpenText {q : Char} {body : List Char} (hq : q ∈ ['"', '\''])
    (hbody : q ∉ body) : Longest .openText (q :: body) [] := by
  constructor
  · exact (Word.opened hq hbody).accepts
  · intro l' v hv _
    rw [List.append_nil] at hv
    exact hv.length_le
  · intro l' hl' h
    obtain ⟨f, hword⟩ := accepts_iff_word.mp h
    rw [hword.not_isFixed_of_quote hq] at hl'
    cases hl'

end Edict

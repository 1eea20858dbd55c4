import Edict.Token.Pattern

/-!
# The longest word of a pattern

`Pattern.Matches` says which words a pattern describes; `Pattern.munch` finds the longest one at the
front of a text by taking derivatives.  `Pattern.matches_derive` says what a derivative is, and from
it follow the two halves of the specification of `munch`: what it finds is a word of the pattern
(`Pattern.matches_take_munch`), and no word of the pattern at the front of the text is longer
(`Pattern.length_le_munch`).

## Main statements

* `Pattern.matches_derive`: the words of a derivative, for every pattern.
* `Pattern.matches_take_munch`, `Pattern.length_le_munch`: `munch` is sound, and nothing longer is a
  word.
* The other lemmas say which words the patterns in use describe.
-/

namespace Edict

namespace Pattern

variable {p q : Pattern} {c : Char} {w : List Char}

/-! ## The words of the constructors -/

/-- No word is one of `nothing`. -/
@[simp] theorem matches_nothing : ¬ Matches .nothing w := nofun

/-- The word of `empty`. -/
@[simp] theorem matches_empty : Matches .empty w ↔ w = [] := by
  constructor
  · rintro ⟨⟩
    rfl
  · rintro rfl
    exact .empty

/-- The words of a class of characters. -/
@[simp] theorem matches_one {accepts : Char → Bool} :
    Matches (.one accepts) w ↔ ∃ c, accepts c = true ∧ w = [c] := by
  constructor
  · rintro ⟨⟩
    exact ⟨_, ‹_›, rfl⟩
  · rintro ⟨c, hc, rfl⟩
    exact .one hc

/-- The words of a sequence. -/
theorem matches_seq :
    Matches (.seq p q) w ↔ ∃ s t, w = s ++ t ∧ Matches p s ∧ Matches q t := by
  constructor
  · rintro ⟨⟩
    exact ⟨_, _, rfl, ‹_›, ‹_›⟩
  · rintro ⟨s, t, rfl, hs, ht⟩
    exact .seq hs ht

/-- The words of alternatives. -/
theorem matches_alt : Matches (.alt p q) w ↔ Matches p w ∨ Matches q w := by
  constructor
  · intro h
    cases h with
    | left h => exact .inl h
    | right h => exact .inr h
  · exact fun h => h.elim .left .right

/-- A word of a repetition that is not empty begins with a word of the pattern that is not empty. -/
theorem matches_many_cons :
    Matches (.many p) (c :: w) ↔
      ∃ s t, w = s ++ t ∧ Matches p (c :: s) ∧ Matches (.many p) t := by
  constructor
  · intro h
    generalize hm : Pattern.many p = m, hw : c :: w = v at h
    induction h with
    | stop => cases hw
    | @more p' s t hs ht _ ih =>
        cases hm
        rcases s with _ | ⟨d, s⟩
        · exact ih rfl hw
        · cases hw
          exact ⟨s, t, rfl, hs, ht⟩
    | _ => cases hm
  · rintro ⟨s, t, rfl, hs, ht⟩
    exact .more hs ht

/-- The words of a repeated class of characters. -/
theorem matches_many_one {accepts : Char → Bool} :
    Matches (.many (.one accepts)) w ↔ ∀ c ∈ w, accepts c = true := by
  induction w with
  | nil => simp [Matches.stop]
  | cons c w ih =>
      rw [matches_many_cons, List.forall_mem_cons, ← ih]
      constructor
      · rintro ⟨s, t, rfl, hs, ht⟩
        obtain ⟨d, hd, heq⟩ := matches_one.mp hs
        cases heq
        exact ⟨hd, ht⟩
      · rintro ⟨hc, hw⟩
        exact ⟨[], w, rfl, .one hc, hw⟩

/-! ## Derivatives -/

/-- Whether the empty word is one of the pattern's. -/
theorem acceptsEmpty_iff (p : Pattern) : p.acceptsEmpty = true ↔ Matches p [] := by
  induction p with
  | nothing => simp [acceptsEmpty]
  | empty => simp [acceptsEmpty]
  | one accepts => simp [acceptsEmpty]
  | seq p q hp hq =>
      simp only [acceptsEmpty, Bool.and_eq_true, hp, hq, matches_seq]
      constructor
      · rintro ⟨hs, ht⟩
        exact ⟨[], [], rfl, hs, ht⟩
      · rintro ⟨s, t, hst, hs, ht⟩
        obtain ⟨rfl, rfl⟩ := List.append_eq_nil_iff.mp hst.symm
        exact ⟨hs, ht⟩
  | alt p q hp hq => simp [acceptsEmpty, matches_alt, hp, hq]
  | many p _ => simp [acceptsEmpty, Matches.stop]

/-- Taking away the trivial cases of a sequence changes none of its words. -/
theorem matches_follow : Matches (follow p q) w ↔ Matches (.seq p q) w := by
  unfold follow
  split
  · simp [matches_seq]
  · rw [matches_seq]
    constructor
    · exact fun h => ⟨[], w, rfl, .empty, h⟩
    · rintro ⟨s, t, rfl, hs, ht⟩
      rw [matches_empty.mp hs]
      exact ht
  · exact Iff.rfl

/-- Taking away the trivial cases of alternatives changes none of their words. -/
theorem matches_either : Matches (either p q) w ↔ Matches (.alt p q) w := by
  unfold either
  split <;> simp [matches_alt]

/-- The words of a derivative are what follows the character in the words of the pattern. -/
theorem matches_derive (p : Pattern) : Matches (p.derive c) w ↔ Matches p (c :: w) := by
  induction p generalizing w with
  | nothing => simp [derive]
  | empty => simp [derive]
  | one accepts =>
      show Matches (if accepts c then .empty else .nothing) w ↔ _
      by_cases hc : accepts c = true
      · rw [if_pos hc, matches_empty, matches_one]
        constructor
        · rintro rfl
          exact ⟨c, hc, rfl⟩
        · rintro ⟨d, -, heq⟩
          exact (List.cons_eq_cons.mp heq).2
      · rw [if_neg hc, matches_one]
        refine ⟨nofun, ?_⟩
        rintro ⟨d, hd, heq⟩
        obtain ⟨rfl, -⟩ := List.cons_eq_cons.mp heq
        exact absurd hd hc
  | seq p q hp hq =>
      -- the character is in the first part, unless that is empty
      have hseq : Matches (.seq p q) (c :: w) ↔
          Matches (.seq (p.derive c) q) w ∨ Matches p [] ∧ Matches (q.derive c) w := by
        rw [matches_seq, matches_seq, hq]
        constructor
        · rintro ⟨s, t, hst, hs, ht⟩
          rcases s with _ | ⟨d, s⟩
          · rw [List.nil_append] at hst
            exact .inr ⟨hs, hst ▸ ht⟩
          · cases hst
            exact .inl ⟨s, t, rfl, hp.mpr hs, ht⟩
        · rintro (⟨s, t, rfl, hs, ht⟩ | ⟨hs, ht⟩)
          · exact ⟨c :: s, t, rfl, hp.mp hs, ht⟩
          · exact ⟨[], c :: w, rfl, hs, ht⟩
      rw [hseq, ← acceptsEmpty_iff]
      show Matches (if p.acceptsEmpty then either (follow (p.derive c) q) (q.derive c)
        else follow (p.derive c) q) w ↔ _
      by_cases he : p.acceptsEmpty = true
      · rw [if_pos he, matches_either, matches_alt, matches_follow]
        simp [he]
      · rw [if_neg he, matches_follow]
        simp [he]
  | alt p q hp hq => simp [derive, matches_either, matches_alt, hp, hq]
  | many p hp =>
      unfold derive
      rw [matches_follow, matches_seq, matches_many_cons]
      simp only [hp]

/-- A pattern that visibly has no word has none. -/
theorem not_matches_of_isNothing (h : p.isNothing = true) : ¬ Matches p w := by
  unfold isNothing at h
  split at h
  · exact matches_nothing
  · cases h

/-! ## The longest word -/

/-- What `munch` finds is a word of the pattern. -/
theorem matches_take_munch (p : Pattern) (cs : List Char) (h : 0 < p.munch cs) :
    Matches p (cs.take (p.munch cs)) := by
  induction cs generalizing p with
  | nil => simp [munch] at h
  | cons c cs ih =>
      have hmore := ih (p.derive c)
      unfold munch at h ⊢
      dsimp only at h ⊢
      split at h
      · omega
      · rename_i hnext
        rw [if_neg hnext]
        rcases hn : (p.derive c).munch cs with _ | n
        · -- the word ends with this character
          rw [hn] at h
          dsimp only at h ⊢
          split at h
          · rename_i hempty
            rw [if_pos hempty, List.take_succ_cons, List.take_zero]
            exact (matches_derive p).mp ((acceptsEmpty_iff _).mp hempty)
          · omega
        · rw [hn] at hmore
          exact (matches_derive p).mp (hmore (Nat.succ_pos n))

/-- No word of the pattern at the front of a text is longer than what `munch` finds. -/
theorem length_le_munch {p : Pattern} {cs : List Char} (hw : w <+: cs) (hp : Matches p w) :
    w.length ≤ p.munch cs := by
  induction cs generalizing p w with
  | nil => simp [List.prefix_nil.mp hw]
  | cons c cs ih =>
      rcases w with _ | ⟨d, w⟩
      · exact Nat.zero_le _
      · obtain ⟨rfl, hrest⟩ := List.cons_prefix_cons.mp hw
        have hnext : Matches (p.derive d) w := (matches_derive p).mpr hp
        have hlength := ih hrest hnext
        unfold munch
        dsimp only
        split
        · rename_i hnone
          exact absurd hnext (not_matches_of_isNothing hnone)
        · split
          · rename_i hzero
            -- nothing more is found, so the word ends here
            have hnil : w = [] := List.eq_nil_of_length_eq_zero (by omega)
            subst hnil
            rw [if_pos ((acceptsEmpty_iff _).mpr hnext)]
            exact Nat.le_refl 1
          · rename_i n hn
            rw [List.length_cons]
            omega

/-! ## The words of the shapes in use -/

/-- The only word of `word w` is `w`. -/
theorem matches_word {v : List Char} : Matches (word w) v ↔ v = w := by
  induction w generalizing v with
  | nil => exact matches_empty
  | cons c w ih =>
      show Matches (.seq (.one (· == c)) (word w)) v ↔ _
      rw [matches_seq]
      constructor
      · rintro ⟨s, t, rfl, hs, ht⟩
        obtain ⟨d, hd, rfl⟩ := matches_one.mp hs
        rw [ih.mp ht, beq_iff_eq.mp hd]
        rfl
      · rintro rfl
        exact ⟨[c], w, rfl, .one (beq_self_eq_true c), ih.mpr rfl⟩

/-- The words of `wordAnyCase w` are those that are `w` in lower case. -/
theorem matches_wordAnyCase {v : List Char} :
    Matches (wordAnyCase w) v ↔ v.map Char.toLower = w := by
  induction w generalizing v with
  | nil => exact matches_empty.trans List.map_eq_nil_iff.symm
  | cons c w ih =>
      show Matches (.seq (.one fun d => d.toLower == c) (wordAnyCase w)) v ↔ _
      rw [matches_seq]
      constructor
      · rintro ⟨s, t, rfl, hs, ht⟩
        obtain ⟨d, hd, rfl⟩ := matches_one.mp hs
        simp [ih.mp ht, beq_iff_eq.mp hd]
      · intro hv
        obtain ⟨d, t, rfl, hd, ht⟩ := List.map_eq_cons_iff.mp hv
        exact ⟨[d], t, rfl, .one (beq_iff_eq.mpr hd), ih.mpr ht⟩

/-- The words of an optional pattern. -/
theorem matches_optional : Matches (optional p) w ↔ w = [] ∨ Matches p w := by
  unfold optional
  rw [matches_alt, matches_empty]

/-- One or more characters of a class. -/
theorem matches_atLeastOne_one {accepts : Char → Bool} :
    Matches (atLeastOne (.one accepts)) w ↔ w ≠ [] ∧ ∀ c ∈ w, accepts c = true := by
  unfold atLeastOne
  rw [matches_seq]
  constructor
  · rintro ⟨s, t, rfl, hs, ht⟩
    obtain ⟨c, hc, rfl⟩ := matches_one.mp hs
    exact ⟨List.cons_ne_nil c t, List.forall_mem_cons.mpr ⟨hc, matches_many_one.mp ht⟩⟩
  · rintro ⟨hne, hall⟩
    obtain ⟨c, t, rfl⟩ := List.exists_cons_of_ne_nil hne
    obtain ⟨hc, ht⟩ := List.forall_mem_cons.mp hall
    exact ⟨[c], t, rfl, .one hc, matches_many_one.mpr ht⟩

end Pattern

end Edict

import Edict.Number.Text
import Edict.Proofs.Number.Exact
import Edict.Proofs.Token.Scanning

/-!
# The texts of numbers

A finite number is written in positional notation, which is a word of the language
(`Number.word_text`): a minus sign or none, digits, and maybe a point and more digits.  If that word
reads back as the number then it becomes the numeral with the number's own sign
(`Number.becomes_text`).

## Main definitions

* `Digits`: characters that are digits, at least one of them.

## Main statements

* `Number.word_text`: the text of a finite number is a word for numbers.
* `Number.becomes_text`: and what it becomes.  That a text reads back is asked of it here, not
  proved.
-/

namespace Edict

/-! ## Digits -/

namespace Digits

variable {ds es : List Char}

/-- The decimal digits of a natural number. -/
theorem ofNat (n : Nat) : Digits (Nat.repr n).toList := by
  rw [Nat.repr, String.toList_ofList]
  exact ⟨Nat.toDigits_ne_nil, fun _ => Nat.isDigit_of_mem_toDigits (by decide) (by decide)⟩

/-- Some of several digits. -/
theorem of_subset (h : Digits ds) (hes : es ⊆ ds) (hne : es ≠ []) : Digits es :=
  ⟨hne, fun d hd => h.isDigit d (hes hd)⟩

/-- Digits behind digits. -/
theorem append (h : ∀ d ∈ ds, d.isDigit = true) (k : Digits es) : Digits (ds ++ es) := by
  refine ⟨by simp [k.ne_nil], fun d hd => ?_⟩
  exact (List.mem_append.mp hd).elim (h d) (k.isDigit d)

end Digits

namespace Number

/-- Zeros are digits. -/
theorem isDigit_of_mem_zeros {n : Nat} : ∀ d ∈ (zeros n).toList, d.isDigit = true := by
  intro d hd
  rw [zeros, String.toList_ofList] at hd
  rw [List.eq_of_mem_replicate hd]
  decide

/-- A decimal without an exponent is made of digits, with at most one point between them. -/
theorem positionalText_digits (d : Decimal) :
    Digits (positionalText "" d).toList ∨
      ∃ ds fs, Digits ds ∧ Digits fs ∧ (positionalText "" d).toList = ds ++ '.' :: fs := by
  have hdigits := Digits.ofNat d.digits
  unfold positionalText
  generalize (Nat.repr d.digits).toList = digits at hdigits ⊢
  dsimp only
  by_cases hwhole : 0 ≤ d.exponent
  · rw [if_pos hwhole]
    left
    simp only [String.toList_append, String.toList_ofList, String.toList_empty, List.append_nil]
    refine ⟨by simp [hdigits.ne_nil], fun c hc => ?_⟩
    exact (List.mem_append.mp hc).elim (hdigits.isDigit c) (isDigit_of_mem_zeros c)
  · rw [if_neg hwhole]
    right
    by_cases hpoint : 0 < (digits.length : Int) + d.exponent
    · -- the point stands between two of the digits
      rw [if_pos hpoint]
      have hfront : digits.take ((digits.length : Int) + d.exponent).toNat ≠ [] := by
        rw [Ne, List.take_eq_nil_iff]
        rintro (hzero | hnil)
        · omega
        · exact hdigits.ne_nil hnil
      have hback : digits.drop ((digits.length : Int) + d.exponent).toNat ≠ [] := by
        rw [Ne, List.drop_eq_nil_iff]
        omega
      exact ⟨_, _, hdigits.of_subset (List.take_subset _ _) hfront,
        hdigits.of_subset (List.drop_subset _ _) hback, by simp⟩
    · rw [if_neg hpoint]
      have hfraction : ∀ n, Digits ((zeros n).toList ++ digits) :=
        fun n => .append isDigit_of_mem_zeros hdigits
      refine ⟨['0'], _, ⟨by simp, by simp⟩, hfraction (-(digits.length + d.exponent)).toNat, ?_⟩
      simp

/-- A finite number is written as a sign, or none, and a decimal without an exponent. -/
theorem exists_text (x : Float) (h : x.isFinite = true) :
    ∃ m d, m ∈ [[], ['-']] ∧ (text x).toList = m ++ (positionalText "" d).toList := by
  obtain ⟨q, hq⟩ := (isFinite_iff x).mp h
  unfold value? at hq
  unfold text write
  rcases hparts : parts x with _ | _ | ⟨negative, m, e⟩ <;> rw [hparts] at hq
  · cases hq
  · cases hq
  · cases negative with
    | true => exact ⟨['-'], _, by simp, by simp [Decimal.write, Layout.rules]; rfl⟩
    | false => exact ⟨[], _, by simp, by simp [Decimal.write, Layout.rules]; rfl⟩

/-- A finite number is written as a word of the language. -/
theorem word_text {x : Float} (h : x.isFinite = true) : Word .number .number (text x).toList := by
  obtain ⟨m, d, hm, htext⟩ := exists_text x h
  rw [htext]
  rcases positionalText_digits d with hds | ⟨ds, fs, hds, hfs, heq⟩
  · exact .whole hm hds
  · rw [heq]
    exact .fraction hm hds hfs

/-- Finite numbers are numbers. -/
theorem isNaN_of_isFinite {x : Float} (h : x.isFinite = true) : x.isNaN = false := by
  change x.toModel.unpack.isFinite = true at h
  change x.toModel.unpack.isNaN = false
  cases hx : x.toModel.unpack <;> rw [hx] at h <;> first | rfl | cases h

end Number

/-- A numeral that is a number has the number's own sign. -/
theorem Numeral.eq_ofWritten {n : Numeral} (h : n.value.isNaN = false) :
    n = ofWritten false n.value := by
  obtain ⟨x, negative, hsign⟩ := n
  have hx : ¬ x.isNaN = true := by simpa using h
  unfold ofWritten
  rw [dif_neg hx]
  simp [hsign.resolve_left hx]

/-- The text of a finite number that reads back as the number is the number's token. -/
theorem Number.becomes_text {x : Float} (h : x.isFinite = true) (hread : ofText? (text x) = some x) :
    Lexeme.Becomes .number (text x).toList (.number (.ofWritten false x)) := by
  obtain ⟨n, hn, rfl⟩ := Option.map_eq_some_iff.mp hread
  rw [← Numeral.eq_ofWritten (isNaN_of_isFinite h)]
  exact .number hn

end Edict

import Edict.Proofs.Number.Difference
import Edict.Proofs.Number.Shortest
import Edict.Proofs.Number.Whole

/-!
# Which numbers are natural

Whether a number is a natural one is read off its parts (`Number.toNat?`), and that is what its
value says (`Number.toNat?_eq_some_iff`).

A machine asks doubles: whether the fraction of the number is zero (`Number.fract`), whether the
number is below zero, and to which machine integer it is cast.  The first two questions come to the
same (`Number.fract_test_iff`), and the integer is the number, unless that is larger than any
(`Number.toNat_toUInt64`).

## Main definitions

* `Number.trunc`, `Number.fract`: a number without its fraction, and the fraction, as differences of
  doubles.

## Main statements

* `Number.toNat?_eq_some_iff`: which numbers are natural, by their exact values.
* `Number.fract_test_iff`, `Number.toNat_toUInt64`: what the machine's test and its cast come to,
  for all numbers, and for those that are natural.
-/

namespace Edict

namespace Number

open Float.Model Float.Model.UnpackedFloat

/-! ## Whole parts -/

/-- If no fraction is cut off, the whole part is all. -/
theorem whole_eq {m : Nat} {e : Int} (h : (whole m e).2 = false) :
    (m * 2 ^ e : ℚ) = (whole m e).1 := by
  cases e with
  | ofNat k => simp [whole]
  | negSucc k =>
      have hdvd : 2 ^ (k + 1) ∣ m := by simpa [whole, Nat.dvd_iff_mod_eq_zero] using h
      obtain ⟨n, rfl⟩ := hdvd
      have hpow : (2 ^ (k + 1) : ℚ) ≠ 0 := by positivity
      have hwhole : (whole (2 ^ (k + 1) * n) (.negSucc k)).1 = n :=
        Nat.mul_div_cancel_left n (by positivity)
      rw [hwhole, zpow_negSucc]
      push_cast
      field_simp

/-- If a fraction is cut off, the number is between its whole part and the next number. -/
theorem whole_lt {m : Nat} {e : Int} (h : (whole m e).2 = true) :
    ((whole m e).1 : ℚ) < m * 2 ^ e ∧ (m * 2 ^ e : ℚ) < (whole m e).1 + 1 := by
  cases e with
  | ofNat k => cases h
  | negSucc k =>
      have hmod : m % 2 ^ (k + 1) ≠ 0 := by simpa [whole] using h
      have hpow : (0 : ℚ) < 2 ^ (k + 1) := by positivity
      have hsplit : 2 ^ (k + 1) * (m / 2 ^ (k + 1)) + m % 2 ^ (k + 1) = m := Nat.div_add_mod _ _
      have hlt : m % 2 ^ (k + 1) < 2 ^ (k + 1) := Nat.mod_lt _ (by positivity)
      show ((m / 2 ^ (k + 1) : Nat) : ℚ) < _ ∧ _ < ((m / 2 ^ (k + 1) : Nat) : ℚ) + 1
      rw [zpow_negSucc, ← div_eq_mul_inv, lt_div_iff₀ hpow, div_lt_iff₀ hpow]
      constructor
      · have hbelow : m / 2 ^ (k + 1) * 2 ^ (k + 1) < m := by rw [Nat.mul_comm]; omega
        exact_mod_cast hbelow
      · have habove : m < (m / 2 ^ (k + 1) + 1) * 2 ^ (k + 1) := by
          rw [Nat.add_mul, Nat.mul_comm]; omega
        exact_mod_cast habove

/-- A fraction is cut off from a small number only. -/
theorem whole_le {m : Nat} {e : Int} (h : (whole m e).2 = true) : (whole m e).1 ≤ m := by
  cases e with
  | ofNat k => cases h
  | negSucc k => exact Nat.div_le_self _ _

/-! ## Natural numbers -/

/-- No number lies between two natural numbers next to each other that is one itself. -/
theorem ne_natCast_of_between {q : ℚ} {k : Nat} (hlow : (k : ℚ) < q) (hhigh : q < k + 1)
    (n : Nat) : q ≠ n := by
  rintro rfl
  have hlow' : k < n := by exact_mod_cast hlow
  have hhigh' : n < k + 1 := by exact_mod_cast hhigh
  omega

/-- A number is found to be a natural one exactly if its value is that. -/
theorem toNat?_eq_some_iff {x : Float} {n : Nat} :
    toNat? x = some n ↔ value? x = some (n : ℚ) := by
  unfold toNat? value?
  rcases parts x with _ | _ | ⟨negative, m, e⟩
  · exact iff_of_false nofun nofun
  · exact iff_of_false nofun nofun
  · dsimp only [Parts.value?]
    have hn : (0 : ℚ) ≤ n := Nat.cast_nonneg n
    cases hcut : (whole m e).2 with
    | false =>
        rw [whole_eq hcut]
        rcases negative with _ | _
        · simp
        · rcases Nat.eq_zero_or_pos (whole m e).1 with hzero | hpos
          · simp [hzero, eq_comm]
          · have hneg : (-(whole m e).1 : ℚ) < 0 := neg_lt_zero.mpr (by exact_mod_cast hpos)
            have hsome : (-(whole m e).1 : ℚ) ≠ n := (hneg.trans_le hn).ne
            simp [hpos.ne', hsome]
    | true =>
        obtain ⟨hlow, hhigh⟩ := whole_lt hcut
        refine iff_of_false nofun fun h => ?_
        rcases negative with _ | _
        · exact ne_natCast_of_between hlow hhigh n (Option.some.inj h)
        · have hpos : (0 : ℚ) < m * 2 ^ e := (Nat.cast_nonneg _).trans_lt hlow
          exact ((neg_lt_zero.mpr hpos).trans_le hn).ne (Option.some.inj h)

/-! ## Fractions -/

/-- A number without its fraction; infinities and NaN stay. -/
def trunc (x : Float) : Float := if isNegative x then ceil x else floor x

/-- The fraction of a number, as a difference of doubles. -/
def fract (x : Float) : Float := x - trunc x

/-- What has no value stays without its fraction. -/
theorem trunc_of_value?_eq_none {x : Float} (h : value? x = none) : trunc x = x := by
  unfold value? at h
  unfold trunc floor ceil
  rcases hparts : parts x with _ | _ | ⟨negative, m, e⟩ <;> rw [hparts] at h
  · simp
  · simp
  · cases h

/-- Of infinities and NaN the fraction is not a number, and so not zero. -/
theorem fract_of_value?_eq_none {x : Float} (h : value? x = none) : (fract x == 0) = false := by
  have hnan : (⟨Float.Model.pack .notANumber⟩ == (0 : Float)) = false := by decide +kernel
  have hself : UnpackedFloat.sub Format.binary64 x.toModel.unpack x.toModel.unpack = .notANumber := by
    unfold value? parts at h
    rcases hx : x.toModel.unpack with ⟨_ | _⟩ | _ | s | ⟨s, m, e, hm⟩ <;> rw [hx] at h
    · rfl
    · rfl
    · rfl
    · cases h
    · cases h
  unfold fract
  rw [trunc_of_value?_eq_none h]
  change ((⟨Float.Model.pack (UnpackedFloat.sub Format.binary64 x.toModel.unpack
    x.toModel.unpack)⟩ : Float) == 0) = false
  rw [hself, hnan]

/-- The value of a natural number that fits into a mantissa. -/
theorem value?_ofNat {n : Nat} (hn : n < 2 ^ 53) : value? (Float.ofNat n) = some (n : ℚ) := by
  rw [← index_eq_ofNat hn]
  exact value?_index hn.le

/-- The fraction of a number that is not negative is zero exactly if the number is a natural one. -/
theorem fract_beq_zero_iff {x : Float} {q : ℚ} (hx : value? x = some q) (hq : 0 ≤ q) :
    (fract x == 0) = true ↔ ∃ n : Nat, q = n := by
  obtain ⟨negative, m, e, hparts, hcases⟩ := exists_parts ((isFinite_iff x).mpr ⟨q, hx⟩)
  have hmantissa : m < 2 ^ 53 := by
    rcases hcases with ⟨rfl, -⟩ | ⟨-, hcanonical⟩
    · decide
    · exact hcanonical.mantissa_lt
  obtain rfl : (if negative then -(m * 2 ^ e) else m * 2 ^ e : ℚ) = q := by
    unfold value? at hx
    rw [hparts] at hx
    exact Option.some.inj hx
  unfold fract trunc isNegative floor ceil
  rw [hparts]
  dsimp only
  cases hcut : (whole m e).2 with
  | false =>
      rw [if_neg Bool.false_ne_true, if_neg Bool.false_ne_true, ite_self, sub_beq_zero_iff hx hx]
      refine iff_of_true rfl ⟨(whole m e).1, ?_⟩
      rw [whole_eq hcut] at hq ⊢
      rcases negative with _ | _
      · rfl
      · -- a number with a minus is natural only if it is zero
        have hle : ((whole m e).1 : ℚ) ≤ 0 := neg_nonneg.mp hq
        have hzero : (whole m e).1 = 0 := by exact_mod_cast hle.antisymm (Nat.cast_nonneg _)
        simp [hzero]
  | true =>
      obtain ⟨hlow, hhigh⟩ := whole_lt hcut
      rcases negative with _ | _
      · have hwhole := value?_ofNat ((whole_le hcut).trans_lt hmantissa)
        have hne := ne_natCast_of_between hlow hhigh
        refine (sub_beq_zero_iff hx hwhole).trans ?_
        exact iff_of_false (hne _) fun ⟨n, hn⟩ => hne n hn
      · have hpos : (0 : ℚ) < m * 2 ^ e := (Nat.cast_nonneg _).trans_lt hlow
        exact absurd hq (neg_lt_zero.mpr hpos).not_ge

/-- A number is natural exactly if its fraction is zero and it is not below zero. -/
theorem fract_test_iff (x : Float) :
    ((fract x == 0) = true ∧ ¬x < 0) ↔ ∃ n, toNat? x = some n := by
  have hzero : value? 0 = some 0 := value?_index (k := 0) (Nat.zero_le _)
  simp only [toNat?_eq_some_iff]
  rcases hx : value? x with _ | q
  · rw [fract_of_value?_eq_none hx]
    exact iff_of_false (fun h => Bool.false_ne_true h.1) nofun
  · rw [lt_iff_value_lt hx hzero, not_lt]
    simp only [Option.some_inj]
    constructor
    · rintro ⟨hfract, hq⟩
      exact (fract_beq_zero_iff hx hq).mp hfract
    · rintro ⟨n, rfl⟩
      have hn : (0 : ℚ) ≤ n := Nat.cast_nonneg n
      exact ⟨(fract_beq_zero_iff hx hn).mpr ⟨n, rfl⟩, hn⟩

/-! ## The cast to a machine integer -/

/-- A number is cast to its whole part, with its sign. -/
theorem roundToInt_eq (s : UnpackedFloat.Sign) (m : Nat) (e : Int) :
    roundToInt s m e = s.apply (whole m e).1 := by
  unfold roundToInt shiftToExponent decreaseExponent
  dsimp only
  cases e with
  | ofNat k =>
      have hleft : ((Int.ofNat k : Int) - 0).toNat = k := by simp
      have hright : ((0 : Int) - (Int.ofNat k - (k : Int))).toNat = 0 := by simp
      rw [hleft, hright, Nat.shiftLeft_eq]
      rfl
  | negSucc k =>
      have hleft : ((Int.negSucc k : Int) - 0).toNat = 0 := by simp
      have hright : ((0 : Int) - (Int.negSucc k - ((0 : Nat) : Int))).toNat = k + 1 := by omega
      rw [hleft, hright]
      exact congrArg (fun n : Nat => s.apply n) (mantissa_repeat (k + 1) ⟨m, false, false⟩)

/-- A natural number is cast to itself, or to the greatest machine integer if it is greater. -/
theorem toNat_toUInt64 {x : Float} {n : Nat} (h : toNat? x = some n) :
    x.toUInt64.toNat = min n (2 ^ 64 - 1) := by
  have hint : x.toModel.unpack.toInt 0 (UInt64.size - 1) = n := by
    unfold toNat? parts at h
    rcases hx : x.toModel.unpack with _ | _ | s | ⟨s, m, e, hm⟩ <;> rw [hx] at h
    · cases h
    · cases h
    · obtain rfl : 0 = n := by simpa [whole] using h
      rfl
    · dsimp only at h
      split_ifs at h with hrefused
      obtain rfl := Option.some.inj h
      show roundToInt s m e = _
      rw [roundToInt_eq]
      rcases s with _ | _
      · -- the whole part of a number with a minus is zero here
        have hzero : (whole m e).1 = 0 := by
          by_contra hne
          exact hrefused (by simp [hne])
        rw [hzero]
        rfl
      · rfl
  have hclamp : (UInt64.ofNatClamp n).toNat = min n (2 ^ 64 - 1) := by
    unfold UInt64.ofNatClamp
    split_ifs with hlt
    · exact (min_eq_left (Nat.le_sub_one_of_lt hlt)).symm
    · exact (min_eq_right ((Nat.sub_le _ _).trans (Nat.not_lt.mp hlt))).symm
  change (UInt64.ofNatClamp (x.toModel.unpack.toInt 0 (UInt64.size - 1)).toNat).toNat = _
  rw [hint, Int.toNat_natCast, hclamp]

end Number

end Edict

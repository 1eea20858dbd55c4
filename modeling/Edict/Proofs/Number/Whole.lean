import Edict.Proofs.Number.Index

/-!
# Natural numbers as doubles

The natural number that a digit sequence writes, `Float.ofNat n`, is for all `n` below `2 ^ 53` the
number that is reached from zero in `n` steps of one (`Number.index_eq_ofNat`).  There is only one
double that is that number and has a full mantissa (`Number.IsWhole.unique`), and both ways lead to
it.

## Main statements

* `Number.isWhole_ofNat`: a natural number from one to `2 ^ 53 - 1` is a double with a full
  mantissa.
* `Number.index_eq_ofNat`: the index of a loop is the number of its turns so far.
-/

namespace Edict

namespace Number

open Float.Model Float.Model.UnpackedFloat

/-! ## From a natural number to a double -/

section small

variable {q n b : Nat} (hq : 2 ^ 52 ≤ q) (hq' : q < 2 ^ 53) (hb : b ≤ 52)
  (hfull : q * 2 ^ b = n * 2 ^ 52) (h : 0 < q)
include hb hfull

/-- The bits that a number below `2 ^ 53` lacks of a full mantissa are filled up by zeros. -/
theorem mantissa_eq : q = n * 2 ^ (52 - b) := by
  have hsplit : 2 ^ 52 = 2 ^ (52 - b) * 2 ^ b := by
    rw [← pow_add, Nat.sub_add_cancel hb]
  rw [hsplit, ← mul_assoc] at hfull
  exact Nat.eq_of_mul_eq_mul_right (by positivity) hfull

include hq hq'

/-- The place of its leading bit. -/
theorem log2_eq : n.log2 = b := by
  have hq_eq := mantissa_eq hb hfull
  have hn : n ≠ 0 := by
    rintro rfl
    omega
  refine (Nat.log2_eq_iff hn).mpr ⟨?_, ?_⟩
  · refine Nat.le_of_mul_le_mul_right (c := 2 ^ (52 - b)) ?_ (by positivity)
    rwa [← hq_eq, ← pow_add, Nat.add_sub_cancel' hb]
  · refine Nat.lt_of_mul_lt_mul_right (a := 2 ^ (52 - b)) ?_
    rwa [← hq_eq, ← pow_add, Nat.add_right_comm, Nat.add_sub_cancel' hb]

/-- It is rounded to itself. -/
theorem round_small :
    UnpackedFloat.round Format.binary64 .positive n 0 = .finite .positive q (b - 52) h := by
  have htarget : Format.binary64.targetExponent (totalExponent n 0) = b - 52 := by
    have hleast : Format.binary64.minExponent = -1074 := rfl
    have hbits : (Format.binary64.mantissaBits : Int) = 53 := rfl
    unfold Format.targetExponent totalExponent
    rw [log2_eq hq hq' hb hfull, hleast, hbits]
    omega
  have hdecrease : decreaseExponent n 0 (b - 52) = (q * 2 ^ 0, (b : Int) - 52) := by
    have hshift : ((0 : Int) - (b - 52)).toNat = 52 - b := by omega
    unfold decreaseExponent
    rw [hshift]
    refine Prod.ext ?_ (by dsimp only; omega)
    show n <<< (52 - b) = q * 2 ^ 0
    rw [Nat.shiftLeft_eq, ← mantissa_eq hb hfull, pow_zero, Nat.mul_one]
  unfold UnpackedFloat.round
  simp only [htarget, hdecrease]
  rw [roundWithAccuracy_full hq hq' 0 (by omega) h]
  congr 1
  omega

/-- A natural number below `2 ^ 53` becomes the double with its full mantissa. -/
theorem toFloat_toUInt64 (hn : n < 2 ^ 53) : n.toUInt64.toFloat = normal q b h := by
  have hnat : n.toUInt64.toNat = n := Nat.mod_eq_of_lt (hn.trans (by decide))
  have hpos : (0 : Int) < n := by
    rcases Nat.eq_zero_or_pos n with rfl | hpos
    · have hzero : 0 < q * 2 ^ b := by positivity
      omega
    · exact Int.natCast_pos.mpr hpos
  show (⟨Float.Model.pack (UnpackedFloat.normalize Format.binary64 (n.toUInt64.toNat : Int) 0
    .positive)⟩ : Float) = _
  unfold UnpackedFloat.normalize
  rw [hnat, Int.compare_eq_gt.mpr hpos]
  dsimp only
  rw [Int.toNat_natCast, round_small hq hq' hb hfull h]
  rfl

end small

/-- Multiplying with one changes nothing. -/
theorem normal_mul_one {q b : Nat} (hq : 2 ^ 52 ≤ q) (hq' : q < 2 ^ 53) (hb : b ≤ 53) (h : 0 < q) :
    normal q b h * 1 = normal q b h := by
  show (⟨Float.Model.pack (UnpackedFloat.mul Format.binary64 (normal q b h).toModel.unpack
    (1 : Float).toModel.unpack)⟩ : Float) = _
  rw [unpack_normal h hq hq' hb, unpack_one]
  have hproduct : UnpackedFloat.mul Format.binary64 (.finite .positive q (b - 52) h)
      (.finite .positive (2 ^ 52) (-52) (by decide)) = .finite .positive q (b - 52) h := by
    show roundWithAccuracy Format.binary64 .positive (q * 2 ^ 52) ((b : Int) - 52 + -52) .exact = _
    rw [roundWithAccuracy_full hq hq' 52 (by omega) h]
    congr 1
    omega
  rw [hproduct]
  rfl

/-- A small natural number is multiplied with `10 ^ 0` to become a double. -/
theorem ofNat_eq {n : Nat} (hn : n < 2 ^ 53) : Float.ofNat n = n.toUInt64.toFloat * 1 := by
  have hone : Float.exactlyRepresentablePowersOfTen[0] = 1 := by decide +kernel
  show Float.ofScientific n false 0 = _
  unfold Float.ofScientific
  rw [dif_pos ⟨hn, by decide⟩]
  simp [hone]

/-- The double of a natural number from `1` to below `2 ^ 53` is that number. -/
theorem isWhole_ofNat {n : Nat} (hpos : 0 < n) (hn : n < 2 ^ 53) : IsWhole (Float.ofNat n) n := by
  obtain ⟨q, b, hq, hq', hb, hfull⟩ := exists_full hpos hn.le
  have hqpos : 0 < q := Nat.lt_of_lt_of_le (by decide) hq
  have hsmall : b ≤ 52 := by
    by_contra hlarge
    obtain rfl : b = 53 := by omega
    omega
  refine ⟨q, b, hqpos, ?_, hq, hq', hb, hfull⟩
  rw [ofNat_eq hn, toFloat_toUInt64 hq hq' hsmall hfull hqpos hn, normal_mul_one hq hq' hb]

/-! ## Counting gets to all of them -/

/-- There is one double that is a given number and has a full mantissa. -/
theorem IsWhole.unique {x y : Float} {n : Nat} (hx : IsWhole x n) (hy : IsWhole y n) : x = y := by
  obtain ⟨m, a, hm, rfl, hlow, hhigh, -, hvalue⟩ := hx
  obtain ⟨q, b, hq, rfl, hlow', hhigh', -, hvalue'⟩ := hy
  have hsame : m * 2 ^ a = q * 2 ^ b := hvalue.trans hvalue'.symm
  obtain rfl : a = b := by
    have hlog := log2_full hlow hhigh a
    rw [hsame, log2_full hlow' hhigh' b] at hlog
    omega
  obtain rfl : m = q := Nat.eq_of_mul_eq_mul_right (by positivity) hsame
  rfl

/-- Below `2 ^ 53`, as many steps of one lead from zero to a number as it is. -/
theorem index_eq_ofNat {k : Nat} (hk : k < 2 ^ 53) : index k = Float.ofNat k := by
  rcases Nat.eq_zero_or_pos k with rfl | hpos
  · rfl
  · exact (isWhole_index hpos hk.le).unique (isWhole_ofNat hpos hk)

end Number

end Edict

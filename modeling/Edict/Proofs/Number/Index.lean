import Edict.Proofs.Number.Exact

/-!
# Counting by one

A counted loop counts from zero by adding one, in doubles.  `Number.index` is what it gets to.  Up
to `2 ^ 53` this is exact: there is a double for each of these numbers, and no sum is rounded
(`Number.value?_index`).  The next sum is rounded back to `2 ^ 53`, where the index then stays
(`Number.index_of_ge`).

`Number.times` is how many turns a count asks for.  The index of each of these turns is below the
count (`Number.index_lt`), and up to `2 ^ 53` no other one is (`Number.index_lt_iff`).

## Main definitions

* `Number.normal`: the double of a full mantissa and an exponent.
* `Number.IsWhole`: a number is a certain natural number, with a full mantissa.
* `Number.index`, `Number.times`: the index after so many turns, and the number of turns asked for.

## Main statements

* `Number.value?_index_iff`: counting is exact up to `2 ^ 53`, and no further.
* `Number.index_lt_iff`, `Number.index_lt`: which turns a loop has, up to `2 ^ 53`, and which it has
  at least, for every count.
-/

namespace Edict

namespace Number

open Float.Model Float.Model.UnpackedFloat

/-! ## Packing -/

/-- The double with a full mantissa `m` and the exponent `a - 52`. -/
def normal (m a : Nat) (h : 0 < m) : Float := ⟨Float.Model.pack (.finite .positive m (a - 52) h)⟩

section normal

variable {m a : Nat} (h : 0 < m) (hm : 2 ^ 52 ≤ m) (hm' : m < 2 ^ 53) (ha : a ≤ 53)
include hm hm' ha

/-- A full mantissa is packed as that of a normal number. -/
theorem pack_normal : UnpackedFloat.pack Format.binary64 (.finite .positive m (a - 52) h) =
    packComponents Format.binary64 .positive (BitVec.ofNat 11 (a + 1023)) (BitVec.ofNat 52 m) := by
  have hlog : m.log2 = 52 := (Nat.log2_eq_iff (Nat.ne_of_gt h)).mpr ⟨hm, hm'⟩
  have hbits : 52 + 1 = Format.binary64.mantissaBits := rfl
  have hbiased : ((a : Int) - 52 + (1023 : Nat) + (52 : Nat)).toNat = a + 1023 := by omega
  have hsmall : ¬2 ^ 11 ≤ a + 1023 + 1 := by omega
  unfold UnpackedFloat.pack
  simp only [hlog, exponentBias_binary64]
  rw [if_neg, if_pos hbits]
  · exact congrArg (fun e => packComponents Format.binary64 .positive (BitVec.ofNat 11 e) _) hbiased
  · rw [hbiased]
    exact hsmall

/-- A full mantissa and its exponent are kept. -/
theorem unpack_normal : (normal m a h).toModel.unpack = .finite .positive m (a - 52) h := by
  have hexponent : (BitVec.ofNat 11 (a + 1023)).toNat = a + 1023 := Nat.mod_eq_of_lt (by omega)
  have hmantissa : (1#1 ++ BitVec.ofNat 52 m).toNat = m := by
    rw [toNat_implicit, BitVec.toNat_ofNat]
    omega
  have hplace : ((a + 1023 : Nat) : Int) - ((1023 : Nat) + (52 : Nat)) = a - 52 := by omega
  show UnpackedFloat.unpack Format.binary64 (UnpackedFloat.pack Format.binary64 _) = _
  rw [pack_normal h hm hm' ha]
  unfold UnpackedFloat.unpack
  simp only [unpackMantissa_packComponents, unpackExponent_packComponents,
    unpackSign_packComponents]
  rw [if_neg, if_neg]
  · simp only [hexponent, hmantissa, exponentBias_binary64]
    exact congrArg (fun e => UnpackedFloat.finite .positive m e h) hplace
  · -- the exponent is not that of subnormal numbers
    intro hzero
    have hvalue : a + 1023 = 0 := hexponent.symm.trans (congrArg BitVec.toNat hzero)
    omega
  · -- nor that of infinities
    intro hones
    have hvalue : a + 1023 = 2047 := hexponent.symm.trans (congrArg BitVec.toNat hones)
    omega

end normal

/-! ## Rounding what needs no rounding -/

section full

variable {q : Nat} (hq : 2 ^ 52 ≤ q) (hq' : q < 2 ^ 53)

/-- Shifting out zeros loses nothing. -/
theorem repeat_shiftRightOne (q b : Nat) :
    Nat.repeat ExtendedMantissa.shiftRightOne b ⟨q * 2 ^ b, false, false⟩ = ⟨q, false, false⟩ := by
  induction b generalizing q with
  | zero => simp [Nat.repeat]
  | succ b ih =>
      have hshift : q * 2 ^ (b + 1) = (q * 2) * 2 ^ b := by ring
      rw [Nat.repeat, hshift, ih]
      simp [ExtendedMantissa.shiftRightOne]

include hq hq'

/-- The place of the leading bit. -/
theorem log2_full (b : Nat) : (q * 2 ^ b).log2 = 52 + b := by
  refine (Nat.log2_eq_iff (by positivity)).mpr ⟨?_, ?_⟩
  · rw [pow_add]
    exact Nat.mul_le_mul_right _ hq
  · rw [show 52 + b + 1 = 53 + b by omega, pow_add]
    exact Nat.mul_lt_mul_of_pos_right hq' (by positivity)

/-- The exponent that goes with a full mantissa. -/
theorem targetExponent_full (b : Nat) {e : Int} (he : -1074 ≤ b + e) :
    Format.binary64.targetExponent (totalExponent (q * 2 ^ b) e) = b + e := by
  have hleast : Format.binary64.minExponent = -1074 := rfl
  have hbits : (Format.binary64.mantissaBits : Int) = 53 := rfl
  unfold Format.targetExponent totalExponent
  rw [log2_full hq hq', hleast, hbits]
  omega

/-- A full mantissa with zeros behind it is shifted without a loss. -/
theorem shiftToTargetExponent_full (b : Nat) {e : Int} (he : -1074 ≤ b + e) :
    shiftToTargetExponent Format.binary64 (q * 2 ^ b) e .exact = (⟨q, false, false⟩, b + e) := by
  have hshift : (b + e - e).toNat = b := by omega
  unfold shiftToTargetExponent shiftToExponent
  rw [targetExponent_full hq hq' b he]
  dsimp only
  rw [hshift]
  exact Prod.ext (repeat_shiftRightOne q b) (Int.add_comm _ _)

/-- An exact result that fits into a mantissa is kept. -/
theorem roundWithAccuracy_full (b : Nat) {e : Int} (he : -1074 ≤ b + e) (h : 0 < q) :
    roundWithAccuracy Format.binary64 .positive (q * 2 ^ b) e .exact =
      .finite .positive q (b + e) h := by
  have hrounded : ExtendedMantissa.roundedMantissa ⟨q, false, false⟩ = q := rfl
  have hagain : shiftToTargetExponent Format.binary64 q (b + e) .exact =
      (⟨q, false, false⟩, b + e) := by
    simpa using shiftToTargetExponent_full hq hq' 0 (by simpa using he)
  unfold roundWithAccuracy
  simp only [shiftToTargetExponent_full hq hq' b he, hrounded, hagain]
  exact dif_neg (Nat.ne_of_gt h)

/-- A number that fits into a mantissa is rounded to itself. -/
theorem round_full (b : Nat) {e : Int} (he : -1074 ≤ b + e) (h : 0 < q) :
    UnpackedFloat.round Format.binary64 .positive (q * 2 ^ b) e = .finite .positive q (b + e) h := by
  have hdecrease : decreaseExponent (q * 2 ^ b) e (b + e) = (q * 2 ^ b, e) := by
    have hshift : (e - (b + e)).toNat = 0 := by omega
    unfold decreaseExponent
    rw [hshift]
    simp
  unfold UnpackedFloat.round
  simp only [targetExponent_full hq hq' b he, hdecrease, roundWithAccuracy_full hq hq' b he h]

end full

/-- The positive numbers up to `2 ^ 53` fit into a mantissa. -/
theorem exists_full {n : Nat} (h : 0 < n) (hn : n ≤ 2 ^ 53) :
    ∃ q b, 2 ^ 52 ≤ q ∧ q < 2 ^ 53 ∧ b ≤ 53 ∧ q * 2 ^ b = n * 2 ^ 52 := by
  rcases hn.lt_or_eq with hlt | rfl
  · obtain ⟨hlow, hhigh⟩ := (Nat.log2_eq_iff (Nat.ne_of_gt h)).mp rfl
    have hlog : n.log2 ≤ 52 := Nat.le_of_lt_succ ((Nat.log2_lt (Nat.ne_of_gt h)).mpr hlt)
    have hsplit : 2 ^ n.log2 * 2 ^ (52 - n.log2) = 2 ^ 52 := by
      rw [← pow_add, Nat.add_sub_cancel' hlog]
    refine ⟨n * 2 ^ (52 - n.log2), n.log2, ?_, ?_, by omega, ?_⟩
    · rw [← hsplit]
      exact Nat.mul_le_mul_right _ hlow
    · calc n * 2 ^ (52 - n.log2) < 2 ^ (n.log2 + 1) * 2 ^ (52 - n.log2) :=
            Nat.mul_lt_mul_of_pos_right hhigh (by positivity)
        _ = 2 ^ 53 := by rw [pow_succ, mul_right_comm, hsplit, ← pow_succ]
    · rw [mul_assoc, mul_comm (2 ^ (52 - n.log2)), hsplit]
  · exact ⟨2 ^ 52, 53, le_rfl, by decide, le_rfl, by norm_num⟩

/-! ## Adding one -/

/-- One as a double. -/
theorem unpack_one : (1 : Float).toModel.unpack = .finite .positive (2 ^ 52) (-52) (by decide) := by
  have hnormal : (1 : Float) = normal (2 ^ 52) 0 (by decide) := by decide +kernel
  rw [hnormal]
  exact unpack_normal (by decide) (by decide) (by decide) (by decide)

/-- A sum with one that fits into a mantissa is not rounded. -/
theorem add_one_full {m a q b : Nat} (h : 0 < m) (hpos : 0 < q) (hq : 2 ^ 52 ≤ q) (hq' : q < 2 ^ 53)
    (hsum : m * 2 ^ a + 2 ^ 52 = q * 2 ^ b) :
    UnpackedFloat.add Format.binary64 (.finite .positive m (a - 52) h)
      (.finite .positive (2 ^ 52) (-52) (by decide)) = .finite .positive q (b - 52) hpos := by
  -- both numbers are brought to the exponent of one, which is the smaller one
  have hleast : min ((a : Int) - 52) (-52) = -52 := by omega
  have hleft : decreaseExponent m (a - 52) (-52) = (m * 2 ^ a, -52) := by
    have hshift : ((a : Int) - 52 - -52).toNat = a := by omega
    unfold decreaseExponent
    rw [hshift]
    exact Prod.ext (Nat.shiftLeft_eq m a) (by dsimp only; omega)
  have hright : decreaseExponent (2 ^ 52) (-52) (-52) = (2 ^ 52, -52) := rfl
  have hcast : Sign.positive.apply ((m * 2 ^ a : Nat) : Int) +
      Sign.positive.apply ((2 ^ 52 : Nat) : Int) = ((q * 2 ^ b : Nat) : Int) := by
    rw [← hsum]
    rfl
  have hnormalize : UnpackedFloat.normalize Format.binary64 ((q * 2 ^ b : Nat) : Int) (-52)
      .positive = .finite .positive q (b - 52) hpos := by
    have hgt : 0 < q * 2 ^ b := by positivity
    unfold UnpackedFloat.normalize
    rw [Int.compare_eq_gt.mpr (by omega)]
    exact round_full hq hq' b (by omega) hpos
  unfold UnpackedFloat.add
  dsimp only
  rw [hleast, hleft, hright]
  dsimp only
  rw [hcast, hnormalize]

/-- The same for doubles. -/
theorem normal_add_one {m a q b : Nat} (h : 0 < m) (hm : 2 ^ 52 ≤ m) (hm' : m < 2 ^ 53)
    (ha : a ≤ 53) (hpos : 0 < q) (hq : 2 ^ 52 ≤ q) (hq' : q < 2 ^ 53)
    (hsum : m * 2 ^ a + 2 ^ 52 = q * 2 ^ b) : normal m a h + 1 = normal q b hpos := by
  show (⟨Float.Model.pack (UnpackedFloat.add Format.binary64 (normal m a h).toModel.unpack
    (1 : Float).toModel.unpack)⟩ : Float) = _
  rw [unpack_normal h hm hm' ha, unpack_one, add_one_full h hpos hq hq' hsum]
  rfl

/-- The number `x` is the natural number `n`, and has a full mantissa. -/
def IsWhole (x : Float) (n : Nat) : Prop :=
  ∃ m a h, x = normal m a h ∧ 2 ^ 52 ≤ m ∧ m < 2 ^ 53 ∧ a ≤ 53 ∧ m * 2 ^ a = n * 2 ^ 52

namespace IsWhole

variable {x : Float} {n : Nat}

/-- Below `2 ^ 53`, adding one is exact. -/
theorem add_one (h : IsWhole x n) (hn : n < 2 ^ 53) : IsWhole (x + 1) (n + 1) := by
  obtain ⟨m, a, hpos, rfl, hm, hm', ha, hvalue⟩ := h
  obtain ⟨q, b, hq, hq', hb, hfull⟩ := exists_full (Nat.add_one_pos n) hn
  have hqpos : 0 < q := Nat.lt_of_lt_of_le (by decide) hq
  refine ⟨q, b, hqpos, normal_add_one hpos hm hm' ha hqpos hq hq' ?_, hq, hq', hb, hfull⟩
  rw [hvalue, hfull]
  ring

/-- Its value. -/
theorem value? (h : IsWhole x n) : value? x = some (n : ℚ) := by
  obtain ⟨m, a, hpos, rfl, hm, hm', ha, hvalue⟩ := h
  have hcast : (m * 2 ^ a : ℚ) = n * 2 ^ 52 := by exact_mod_cast hvalue
  unfold Number.value? parts
  rw [unpack_normal hpos hm hm' ha]
  show some ((m : ℚ) * 2 ^ ((a : Int) - 52)) = _
  rw [zpow_sub₀ two_ne_zero, zpow_natCast, mul_div_assoc', hcast]
  norm_num

/-- The parts of `2 ^ 53`. -/
theorem eq_normal (h : IsWhole x (2 ^ 53)) : x = normal (2 ^ 52) 53 (by decide) := by
  obtain ⟨m, a, hpos, rfl, hm, hm', ha, hvalue⟩ := h
  obtain rfl : a = 53 := by
    by_contra hne
    have hpow : 2 ^ a ≤ 2 ^ 52 := Nat.pow_le_pow_right two_pos (by omega)
    have hsmall : m * 2 ^ a < 2 ^ 53 * 2 ^ 52 := Nat.mul_lt_mul_of_lt_of_le hm' hpow (by decide)
    omega
  obtain rfl : m = 2 ^ 52 := by omega
  rfl

end IsWhole

/-! ## The index of a loop -/

/-- The number that is reached from zero in `k` steps of one. -/
def index : Nat → Float
  | 0 => 0
  | k + 1 => index k + 1

/-- Up to `2 ^ 53` the index is the number of turns. -/
theorem isWhole_index {k : Nat} (hpos : 1 ≤ k) (hk : k ≤ 2 ^ 53) : IsWhole (index k) k := by
  induction k, hpos using Nat.le_induction with
  | base =>
      have hone : index 1 = normal (2 ^ 52) 0 (by decide) := by decide +kernel
      exact ⟨2 ^ 52, 0, by decide, hone, le_rfl, by decide, by decide, by decide⟩
  | succ k hpos ih => exact (ih (Nat.le_of_succ_le hk)).add_one hk

/-- Up to `2 ^ 53` counting is exact. -/
theorem value?_index {k : Nat} (hk : k ≤ 2 ^ 53) : value? (index k) = some (k : ℚ) := by
  cases k with
  | zero =>
      have hparts : parts 0 = .finite false 0 0 := by decide +kernel
      show (parts 0).value? = _
      rw [hparts]
      simp [Parts.value?]
  | succ k => exact (isWhole_index (Nat.add_one_pos k) hk).value?

/-- The index `2 ^ 53` is its own successor: the sum is rounded back. -/
theorem index_full_add_one : index (2 ^ 53) + 1 = index (2 ^ 53) := by
  have hround : normal (2 ^ 52) 53 (by decide) + 1 = normal (2 ^ 52) 53 (by decide) := by
    decide +kernel
  rw [(isWhole_index (by decide) le_rfl).eq_normal, hround]

/-- From `2 ^ 53` on, the index stays. -/
theorem index_of_ge {k : Nat} (hk : 2 ^ 53 ≤ k) : index k = index (2 ^ 53) := by
  induction k, hk using Nat.le_induction with
  | base => rfl
  | succ k hk ih =>
      show index k + 1 = _
      rw [ih, index_full_add_one]

/-- Counting is exact up to `2 ^ 53`, and no further. -/
theorem value?_index_iff (k : Nat) : value? (index k) = some (k : ℚ) ↔ k ≤ 2 ^ 53 := by
  refine ⟨fun h => ?_, value?_index⟩
  rcases Nat.lt_or_ge (2 ^ 53) k with hk | hk
  · rw [index_of_ge hk.le, value?_index le_rfl, Option.some_inj, Nat.cast_inj] at h
    exact h.ge
  · exact hk

/-! ## The turns of a loop -/

/-- How many turns a loop is asked for: its count rounded up if that is positive and finite, and
none otherwise. -/
def times (x : Float) : Nat := ⌈(value? x).getD 0⌉₊

/-- A finite count is rounded up. -/
theorem times_eq {x : Float} {q : ℚ} (h : value? x = some q) : times x = ⌈q⌉₊ := by
  unfold times
  rw [h]
  rfl

/-- Up to `2 ^ 53`, the indices below a count are those of its turns. -/
theorem index_lt_iff {k : Nat} (hk : k ≤ 2 ^ 53) {x : Float} {q : ℚ} (hx : value? x = some q) :
    index k < x ↔ k < times x := by
  rw [lt_iff_value_lt (value?_index hk) hx, times_eq hx, Nat.lt_ceil]

/-- A loop has turns if its count is finite and positive. -/
theorem times_pos_iff (x : Float) : 0 < times x ↔ x.isFinite = true ∧ 0 < x := by
  rcases hx : value? x with _ | q
  · have hzero : times x = 0 := by
      unfold times
      rw [hx]
      exact Nat.ceil_zero
    have hinfinite : ¬x.isFinite = true := by
      rw [isFinite_iff, hx]
      exact nofun
    rw [hzero]
    exact iff_of_false (lt_irrefl 0) fun h => hinfinite h.1
  · rw [← index_lt_iff (Nat.zero_le _) hx]
    exact (and_iff_right ((isFinite_iff x).mpr ⟨q, hx⟩)).symm

/-- The index of each turn is below the count. -/
theorem index_lt {k : Nat} {x : Float} (h : k < times x) : index k < x := by
  obtain ⟨hfinite, -⟩ := (times_pos_iff x).mp (Nat.zero_lt_of_lt h)
  obtain ⟨q, hx⟩ := (isFinite_iff x).mp hfinite
  rcases Nat.lt_or_ge (2 ^ 53) k with hk | hk
  · rw [index_of_ge hk.le]
    exact (index_lt_iff le_rfl hx).mpr (hk.trans h)
  · exact (index_lt_iff hk hx).mpr h

end Number

end Edict

import Edict.Proofs.Number.Exact

/-!
# Differences of numbers

The difference of two finite numbers is a zero exactly if they have the same value
(`Number.sub_beq_zero_iff`).  A difference that is not zero may be rounded, but not to zero: it is a
multiple of the least double there is, and what rounding cuts off is below the leading bit.

## Main definitions

* `Number.Nonzero`: an unpacked number that stays different from zero when it is packed.

## Main statements

* `Number.nonzero_round`: rounding takes no number that is at least the least double to zero.
* `Number.sub_beq_zero_iff`: when a difference is zero.  Both numbers are finite.
-/

namespace Edict

namespace Number

open Float.Model Float.Model.UnpackedFloat

/-! ## Rounding -/

/-- Shifting bits out of a mantissa divides it. -/
theorem mantissa_repeat (k : Nat) (em : ExtendedMantissa) :
    (Nat.repeat ExtendedMantissa.shiftRightOne k em).mantissa = em.mantissa / 2 ^ k := by
  induction k with
  | zero => simp [Nat.repeat]
  | succ k ih =>
      have hshift : (Nat.repeat ExtendedMantissa.shiftRightOne (k + 1) em).mantissa =
          (Nat.repeat ExtendedMantissa.shiftRightOne k em).mantissa / 2 := rfl
      rw [hshift, ih, Nat.div_div_eq_div_mul, pow_succ]

/-- Rounding makes a mantissa no smaller. -/
theorem le_roundedMantissa (em : ExtendedMantissa) : em.mantissa ≤ em.roundedMantissa := by
  rcases em with ⟨m, _ | _, _ | _⟩
  · exact le_rfl
  · exact le_rfl
  · exact Nat.le_add_right _ _
  · exact Nat.le_succ _

/-- What is left of a mantissa if only its 53 leading bits are kept. -/
theorem leading_bits {m : Nat} (hm : 0 < m) :
    0 < m / 2 ^ (m.log2 - 52) ∧ m / 2 ^ (m.log2 - 52) < 2 ^ 53 := by
  constructor
  · refine Nat.div_pos ?_ (by positivity)
    exact (Nat.pow_le_pow_right two_pos (Nat.sub_le _ _)).trans (Nat.log2_self_le hm.ne')
  · refine (Nat.div_lt_iff_lt_mul (by positivity)).mpr ?_
    rw [← pow_add]
    exact Nat.lt_log2_self.trans_le (Nat.pow_le_pow_right two_pos (by omega))

/-- From the least exponent on, all bits but the 53 leading ones are shifted out. -/
theorem shiftToTargetExponent_eq (m : Nat) {e : Int} (he : -1074 ≤ e) :
    shiftToTargetExponent Format.binary64 m e .exact =
      (Nat.repeat ExtendedMantissa.shiftRightOne (m.log2 - 52) ⟨m, false, false⟩,
        e + (m.log2 - 52 : Nat)) := by
  have hleast : Format.binary64.minExponent = -1074 := rfl
  have hbits : (Format.binary64.mantissaBits : Int) = 53 := rfl
  have hamount : (Format.binary64.targetExponent (totalExponent m e) - e).toNat = m.log2 - 52 := by
    unfold Format.targetExponent totalExponent
    rw [hleast, hbits]
    omega
  unfold shiftToTargetExponent shiftToExponent
  dsimp only
  rw [hamount]
  rfl

/-- What is packed as a number other than zero. -/
def Nonzero (u : UnpackedFloat) : Prop :=
  ∃ s m e h, u = .finite s m e h ∧ m < 2 ^ 53 ∧ -1074 ≤ e

/-- A multiple of the least double is not rounded to zero. -/
theorem nonzero_roundWithAccuracy (s : UnpackedFloat.Sign) {m : Nat} {e : Int} (hm : 0 < m)
    (he : -1074 ≤ e) : Nonzero (roundWithAccuracy Format.binary64 s m e .exact) := by
  unfold roundWithAccuracy
  rw [shiftToTargetExponent_eq m he]
  dsimp only
  generalize hr : ExtendedMantissa.roundedMantissa _ = r
  have hpos : 0 < r := by
    refine (leading_bits hm).1.trans_le ?_
    have hround := le_roundedMantissa (Nat.repeat ExtendedMantissa.shiftRightOne (m.log2 - 52)
      ⟨m, false, false⟩)
    rwa [hr, mantissa_repeat] at hround
  have he' : -1074 ≤ e + (m.log2 - 52 : Nat) := by omega
  rw [shiftToTargetExponent_eq r he']
  dsimp only
  rw [mantissa_repeat]
  obtain ⟨hne, hlt⟩ := leading_bits hpos
  rw [dif_neg hne.ne']
  exact ⟨_, _, _, _, rfl, hlt, by omega⟩

/-- The same for a number whose exponent may be too large. -/
theorem nonzero_round (s : UnpackedFloat.Sign) {m : Nat} {e : Int} (hm : 0 < m)
    (he : -1074 ≤ e) : Nonzero (UnpackedFloat.round Format.binary64 s m e) := by
  unfold UnpackedFloat.round decreaseExponent
  dsimp only
  have hleast : -1074 ≤ Format.binary64.targetExponent (totalExponent m e) :=
    Int.le_max_right _ _
  refine nonzero_roundWithAccuracy s ?_ (by omega)
  rw [Nat.shiftLeft_eq]
  positivity

/-- A sum or a difference is only rounded to zero if it is zero. -/
theorem normalize_cases (d : Int) {e : Int} (he : -1074 ≤ e) :
    (d = 0 ∧ UnpackedFloat.normalize Format.binary64 d e .positive = .zero .positive) ∨
      (d ≠ 0 ∧ Nonzero (UnpackedFloat.normalize Format.binary64 d e .positive)) := by
  unfold UnpackedFloat.normalize
  rcases Int.lt_trichotomy d 0 with h | rfl | h
  · rw [Int.compare_eq_lt.mpr h]
    exact .inr ⟨h.ne, nonzero_round _ (by omega) he⟩
  · exact .inl ⟨rfl, rfl⟩
  · rw [Int.compare_eq_gt.mpr h]
    exact .inr ⟨h.ne', nonzero_round _ (by omega) he⟩

/-! ## Packing -/

/-- What is not zero is not packed as zero. -/
theorem Nonzero.pack_ne {u : UnpackedFloat} (h : Nonzero u) (t : UnpackedFloat.Sign) :
    UnpackedFloat.pack Format.binary64 u ≠ packedZero Format.binary64 t := by
  obtain ⟨s, m, e, hm, rfl, hlt, he⟩ := h
  have hbits : Format.binary64.mantissaBits = 52 + 1 := rfl
  unfold UnpackedFloat.pack
  dsimp only
  rw [exponentBias_binary64]
  split_ifs with hlarge hnormal <;> intro hzero
  · -- the exponent of infinities
    have hexponent := congrArg unpackExponent hzero
    rw [packedInfinity, packedZero, unpackExponent_packComponents,
      unpackExponent_packComponents] at hexponent
    exact absurd hexponent (by decide)
  · -- the exponent of a normal number
    have hexponent := congrArg (BitVec.toNat ∘ unpackExponent) hzero
    simp only [packedZero, Function.comp_apply, unpackExponent_packComponents] at hexponent
    rw [BitVec.toNat_ofNat] at hexponent
    change _ % 2 ^ 11 = 0 at hexponent
    omega
  · -- the mantissa of a subnormal number
    have hmantissa := congrArg (BitVec.toNat ∘ unpackMantissa) hzero
    simp only [packedZero, Function.comp_apply, unpackMantissa_packComponents] at hmantissa
    rw [BitVec.toNat_ofNat] at hmantissa
    change _ % 2 ^ 52 = 0 at hmantissa
    have hlog : m.log2 < 53 := (Nat.log2_lt hm.ne').mpr hlt
    have hsmall : m < 2 ^ 52 := (Nat.log2_lt hm.ne').mp (by omega)
    omega

/-- A number that is not zero is not equal to zero. -/
theorem Nonzero.beq_zero {u : UnpackedFloat} (h : Nonzero u) :
    ((⟨Float.Model.pack u⟩ : Float) == 0) = false := by
  have hbits : ∀ (t : UnpackedFloat.Sign) (z : Float),
      z.toModel.toBits.toBitVec = packedZero Format.binary64 t →
        (⟨Float.Model.pack u⟩ : Float) ≠ z := by
    rintro t z hz rfl
    exact h.pack_ne t hz
  rw [← Bool.not_eq_true, Float.beq_iff_ne_nan_and_eq]
  rintro ⟨-, -, hzero | ⟨hzero, -⟩ | ⟨hzero, -⟩⟩
  · exact hbits .positive 0 (by decide +kernel) hzero
  · exact hbits .positive 0 (by decide +kernel) hzero
  · exact hbits .negative (-0) (by decide +kernel) hzero

/-- The zeros are equal to zero. -/
theorem zero_beq_zero (s : UnpackedFloat.Sign) :
    ((⟨Float.Model.pack (.zero s)⟩ : Float) == 0) = true := by
  cases s <;> decide +kernel

/-! ## Differences -/

/-- A finite double is a zero, or it has a sign, a mantissa and an exponent. -/
theorem StandsFor.zero_or {u : UnpackedFloat} {p : ℚ} (h : StandsFor u p) :
    (∃ s, u = .zero s ∧ p = 0) ∨
      ∃ s m e hm, u = .finite s m e hm ∧ Canonical m e ∧ p = (s.apply m : ℤ) * 2 ^ e := by
  cases h with
  | zero s => exact .inl ⟨s, rfl, rfl⟩
  | @positive m e hm hme => exact .inr ⟨_, m, e, hm, rfl, hme, by simp [UnpackedFloat.Sign.apply]⟩
  | @negative m e hm hme => exact .inr ⟨_, m, e, hm, rfl, hme, by simp [UnpackedFloat.Sign.apply]⟩

/-- A mantissa with a sign is not zero. -/
theorem signed_ne_zero (s : UnpackedFloat.Sign) {m : Nat} (hm : 0 < m) (e : Int) :
    ((s.apply m : ℤ) * 2 ^ e : ℚ) ≠ 0 := by
  have hpos := magnitude_pos hm e
  cases s with
  | positive => simpa [UnpackedFloat.Sign.apply] using hpos.ne'
  | negative => simpa [UnpackedFloat.Sign.apply] using hpos.ne'

/-- A number in terms of a smaller exponent. -/
theorem decreaseExponent_value (s : UnpackedFloat.Sign) (m : Nat) {e k : Int} (h : k ≤ e) :
    ((s.apply m : ℤ) * 2 ^ e : ℚ) = (s.apply (decreaseExponent m e k).1 : ℤ) * 2 ^ k := by
  obtain ⟨j, rfl⟩ := Int.le.dest h
  have hshift : (k + j - k).toNat = j := by omega
  have hmantissa : (decreaseExponent m (k + j) k).1 = m * 2 ^ j := by
    unfold decreaseExponent
    rw [hshift]
    exact Nat.shiftLeft_eq m j
  rw [hmantissa, zpow_add₀ two_ne_zero, zpow_natCast]
  cases s <;> simp only [UnpackedFloat.Sign.apply] <;> push_cast <;> ring

/-- The difference of finite doubles is a zero exactly if they stand for the same. -/
theorem StandsFor.sub_cases {u v : UnpackedFloat} {p q : ℚ} (hu : StandsFor u p)
    (hv : StandsFor v q) :
    (p = q ∧ ∃ s, UnpackedFloat.sub Format.binary64 u v = .zero s) ∨
      (p ≠ q ∧ Nonzero (UnpackedFloat.sub Format.binary64 u v)) := by
  rcases hu.zero_or with ⟨s, rfl, rfl⟩ | ⟨s, m, e, hm, rfl, hme, rfl⟩ <;>
    rcases hv.zero_or with ⟨t, rfl, rfl⟩ | ⟨t, n, f, hn, rfl, hnf, rfl⟩
  · refine .inl ⟨rfl, ?_⟩
    unfold UnpackedFloat.sub
    dsimp only
    split <;> exact ⟨_, rfl⟩
  · refine .inr ⟨(signed_ne_zero t hn f).symm, -t, n, f, hn, rfl, ?_⟩
    exact ⟨hnf.mantissa_lt, hnf.exponent_ge⟩
  · exact .inr ⟨signed_ne_zero s hm e, s, m, e, hm, rfl, hme.mantissa_lt, hme.exponent_ge⟩
  · -- both are brought to the smaller exponent, where their mantissas are subtracted
    have hpow : (2 ^ min e f : ℚ) ≠ 0 := by positivity
    rw [decreaseExponent_value s m (min_le_left e f), decreaseExponent_value t n (min_le_right e f)]
    have hleast : -1074 ≤ min e f := le_min hme.exponent_ge hnf.exponent_ge
    rcases normalize_cases (s.apply (decreaseExponent m e (min e f)).1 -
      t.apply (decreaseExponent n f (min e f)).1) hleast with ⟨hd, hround⟩ | ⟨hd, hround⟩
    · exact .inl ⟨by rw [sub_eq_zero.mp hd], _, hround⟩
    · refine .inr ⟨fun h => hd ?_, hround⟩
      exact sub_eq_zero.mpr (by exact_mod_cast mul_right_cancel₀ hpow h)

/-- The difference of finite numbers is a zero exactly if they have the same value. -/
theorem sub_beq_zero_iff {x y : Float} {p q : ℚ} (hx : value? x = some p) (hy : value? y = some q) :
    (x - y == 0) = true ↔ p = q := by
  change ((⟨Float.Model.pack (UnpackedFloat.sub Format.binary64 x.toModel.unpack
    y.toModel.unpack)⟩ : Float) == 0) = true ↔ _
  rcases (standsFor_of_value? hx).sub_cases (standsFor_of_value? hy) with
    ⟨hpq, s, hsub⟩ | ⟨hpq, hsub⟩
  · rw [hsub]
    exact iff_of_true (zero_beq_zero s) hpq
  · rw [hsub.beq_zero]
    exact iff_of_false Bool.false_ne_true hpq

end Number

end Edict

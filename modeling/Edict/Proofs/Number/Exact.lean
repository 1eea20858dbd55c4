import Edict.Number.Parts
import Mathlib

/-!
# Exact values

A finite number stands for a rational one, its exact value (`Number.value?`), and finite numbers
compare as their values do (`Number.lt_iff_value_lt`).

Doubles are compared by their exponents first and by their mantissas second.  This is right because
a double has only one form: its mantissa uses all of the 53 bits, unless the exponent is the least
one (`Number.Canonical`).

## Main definitions

* `Number.value?`: the exact value; infinities and NaN have none.
* `Number.Canonical`, `Number.StandsFor`: the one form in which a double is unpacked, and the
  rational number that the form stands for.

## Main statements

* `Number.isFinite_iff`: the finite numbers are those with an exact value.
* `Number.lt_iff_value_lt`: the order of finite numbers is that of their values.
-/

namespace Edict

namespace Number

open Float.Model Float.Model.UnpackedFloat

/-- What the parts of a number stand for. -/
def Parts.value? : Parts → Option ℚ
  | .finite negative m e => some (if negative then -(m * 2 ^ e) else m * 2 ^ e)
  | _ => none

/-- The exact value of a number; infinities and NaN have none. -/
def value? (x : Float) : Option ℚ := (parts x).value?

/-- Exactly the finite numbers have a value. -/
theorem isFinite_iff (x : Float) : x.isFinite = true ↔ ∃ q, value? x = some q := by
  show x.toModel.unpack.isFinite = true ↔ _
  unfold value? parts
  rcases x.toModel.unpack with s | _ | s | ⟨s, m, e, hm⟩
  · exact iff_of_false nofun nofun
  · exact iff_of_false nofun nofun
  · exact iff_of_true rfl ⟨_, rfl⟩
  · exact iff_of_true rfl ⟨_, rfl⟩

/-! ## Magnitudes -/

/-- A mantissa and an exponent as a double has them: the mantissa uses all its bits unless the
exponent is the least one. -/
structure Canonical (m : Nat) (e : Int) : Prop where
  mantissa_lt : m < 2 ^ 53
  exponent_ge : -1074 ≤ e
  full : 2 ^ 52 ≤ m ∨ e = -1074

/-- What has a mantissa is not zero. -/
theorem magnitude_pos {m : Nat} (h : 0 < m) (e : Int) : (0 : ℚ) < m * 2 ^ e := by positivity

namespace Canonical

variable {m₁ m₂ : Nat} {e₁ e₂ : Int}

/-- The smaller exponent belongs to the smaller magnitude. -/
theorem lt_of_exponent_lt (h₁ : Canonical m₁ e₁) (h₂ : Canonical m₂ e₂) (h : e₁ < e₂) :
    (m₁ * 2 ^ e₁ : ℚ) < m₂ * 2 ^ e₂ := by
  have hfull : 2 ^ 52 ≤ m₂ := by
    have hleast := h₁.exponent_ge
    rcases h₂.full with hfull | heq
    · exact hfull
    · omega
  have hlow : (m₁ : ℚ) < 2 ^ 53 := by exact_mod_cast h₁.mantissa_lt
  have hhigh : (2 ^ 52 : ℚ) ≤ m₂ := by exact_mod_cast hfull
  calc (m₁ * 2 ^ e₁ : ℚ) < 2 ^ 53 * 2 ^ e₁ := by gcongr
    _ = 2 ^ 52 * 2 ^ (e₁ + 1) := by rw [zpow_add_one₀ two_ne_zero]; ring
    _ ≤ 2 ^ 52 * 2 ^ e₂ := by gcongr; exacts [one_le_two, h]
    _ ≤ m₂ * 2 ^ e₂ := by gcongr

/-- Magnitudes compare by exponent first and by mantissa second. -/
theorem compare_eq_lt_iff (h₁ : Canonical m₁ e₁) (h₂ : Canonical m₂ e₂) :
    (compare e₁ e₂).then (compare m₁ m₂) = .lt ↔ (m₁ * 2 ^ e₁ : ℚ) < m₂ * 2 ^ e₂ := by
  rcases Int.lt_trichotomy e₁ e₂ with h | rfl | h
  · have hlt := h₁.lt_of_exponent_lt h₂ h
    rw [Int.compare_eq_lt.mpr h]
    exact iff_of_true rfl hlt
  · have hpow : (0 : ℚ) < 2 ^ e₁ := by positivity
    rw [Int.compare_eq_eq.mpr rfl, mul_lt_mul_iff_left₀ hpow, Nat.cast_lt]
    exact Nat.compare_eq_lt
  · have hlt := h₂.lt_of_exponent_lt h₁ h
    rw [Int.compare_eq_gt.mpr h]
    exact iff_of_false nofun hlt.le.not_gt

end Canonical

/-! ## Doubles taken apart -/

/-- The bias of the exponents of doubles. -/
theorem exponentBias_binary64 : Format.binary64.exponentBias = 1023 := rfl

/-- The leading bit of a mantissa, which a double does not store. -/
theorem toNat_implicit (v : BitVec 52) : (1#1 ++ v).toNat = 2 ^ 52 + v.toNat := by
  rw [BitVec.toNat_append, ← Nat.shiftLeft_add_eq_or_of_lt v.isLt]
  rfl

/-- The parts of a double are canonical. -/
theorem canonical_of_unpack {x : Float} {s : Sign} {m : Nat} {e : Int} {h : 0 < m}
    (hx : x.toModel.unpack = .finite s m e h) : Canonical m e := by
  have hmantissa : (@unpackMantissa Format.binary64 x.toModel.toBits.toBitVec).toNat < 2 ^ 52 :=
    (@unpackMantissa Format.binary64 x.toModel.toBits.toBitVec).isLt
  unfold Float.Model.unpack UnpackedFloat.unpack at hx
  dsimp only at hx
  split at hx
  · -- the exponent of infinities and NaN
    split at hx <;> cases hx
  · split at hx
    · -- the exponent of zeros and subnormal numbers
      rename_i hzero
      split at hx
      · cases hx
      · cases hx
        rw [hzero, exponentBias_binary64]
        exact ⟨Nat.lt_of_lt_of_le hmantissa (by decide), le_refl (-1074), .inr rfl⟩
    · rename_i hzero
      cases hx
      have hexponent : (@unpackExponent Format.binary64 x.toModel.toBits.toBitVec).toNat ≠ 0 :=
        fun h => hzero (BitVec.eq_of_toNat_eq h)
      rw [toNat_implicit, exponentBias_binary64]
      exact ⟨by omega, by omega, .inl (by omega)⟩

/-- What a finite double stands for. -/
inductive StandsFor : UnpackedFloat → ℚ → Prop
  | zero (s : Sign) : StandsFor (.zero s) 0
  | positive {m : Nat} {e : Int} (h : 0 < m) : Canonical m e →
      StandsFor (.finite .positive m e h) (m * 2 ^ e)
  | negative {m : Nat} {e : Int} (h : 0 < m) : Canonical m e →
      StandsFor (.finite .negative m e h) (-(m * 2 ^ e))

/-- A finite number stands for its value. -/
theorem standsFor_of_value? {x : Float} {q : ℚ} (h : value? x = some q) :
    StandsFor x.toModel.unpack q := by
  unfold value? parts at h
  rcases hx : x.toModel.unpack with s | _ | s | ⟨_ | _, m, e, hm⟩ <;> rw [hx] at h
  · cases h
  · cases h
  · have hq : (0 : ℚ) = q := by simpa [Parts.value?] using h
    exact hq ▸ .zero s
  · cases h
    exact .negative hm (canonical_of_unpack hx)
  · cases h
    exact .positive hm (canonical_of_unpack hx)

/-! ## Order -/

/-- Doubles compare as what they stand for. -/
theorem StandsFor.compare_eq_lt_iff {u v : UnpackedFloat} {p q : ℚ} (hu : StandsFor u p)
    (hv : StandsFor v q) : u.compare v = some .lt ↔ p < q := by
  cases hu with
  | zero s =>
      cases hv with
      | zero t => exact iff_of_false nofun (lt_irrefl 0)
      | @positive n f hn hnf => exact iff_of_true rfl (magnitude_pos hn f)
      | @negative n f hn hnf =>
          exact iff_of_false nofun (neg_lt_zero.mpr (magnitude_pos hn f)).le.not_gt
  | @positive m e hm hme =>
      have hpos := magnitude_pos hm e
      cases hv with
      | zero t => exact iff_of_false nofun hpos.le.not_gt
      | @positive n f hn hnf => exact Option.some_inj.trans (hme.compare_eq_lt_iff hnf)
      | @negative n f hn hnf =>
          have hneg := neg_lt_zero.mpr (magnitude_pos hn f)
          exact iff_of_false nofun (hneg.trans hpos).le.not_gt
  | @negative m e hm hme =>
      have hneg := neg_lt_zero.mpr (magnitude_pos hm e)
      cases hv with
      | zero t => exact iff_of_true rfl hneg
      | @positive n f hn hnf => exact iff_of_true rfl (hneg.trans (magnitude_pos hn f))
      | @negative n f hn hnf =>
          -- of two negative numbers, the one with the larger magnitude is smaller
          have hswap : ((compare e f).then (compare m n)).swap =
              (compare f e).then (compare n m) := by
            rw [Ordering.swap_then, Int.compare_swap, Nat.compare_swap]
          rw [neg_lt_neg_iff, ← hnf.compare_eq_lt_iff hme, ← hswap]
          exact Option.some_inj

/-- Doubles are compared by what they are when taken apart. -/
theorem lt_iff_compare {x y : Float} :
    x < y ↔ x.toModel.unpack.compare y.toModel.unpack = some .lt := by
  show decide (x.toModel < y.toModel) = true ↔ _
  rw [decide_eq_true_iff]
  exact beq_iff_eq

/-- The order of finite numbers is the order of their values. -/
theorem lt_iff_value_lt {x y : Float} {p q : ℚ} (hx : value? x = some p) (hy : value? y = some q) :
    x < y ↔ p < q :=
  lt_iff_compare.trans ((standsFor_of_value? hx).compare_eq_lt_iff (standsFor_of_value? hy))

end Number

end Edict

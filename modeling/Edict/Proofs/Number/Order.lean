import Edict.Proofs.Number.Exact

/-!
# The order of numbers

Apart from NaN the numbers are in one line: the negative infinity, the finite numbers in the order
of their values, and the infinity.  `Number.rank` is the place of a number in it.  The order and the
equality of doubles are those of the ranks (`Number.lt_iff_rank_lt`, `Number.beq_iff_rank_eq`), so
two numbers have one rank if they are the same double, or the two zeros.

## Main definitions

* `Number.rank`: the place of a number in the line.  That of NaN means nothing.

## Main statements

* `Number.lt_iff_rank_lt`, `Number.beq_iff_rank_eq`, `Number.exists_order?`: order and equality by
  ranks, for numbers that are not NaN.
* `Number.eq_or_zeros`: two equal numbers are the same one, or both are zeros.
-/

namespace Edict

namespace Number

open Float.Model Float.Model.UnpackedFloat

/-! ## Ranks -/

/-- The place of what the parts of a number stand for.  A NaN has none; it counts as the negative
infinity here. -/
def Parts.rank : Parts → WithBot (WithTop ℚ)
  | .nan => ⊥
  | .infinite negative => if negative then ⊥ else ⊤
  | .finite negative m e => ((if negative then -(m * 2 ^ e) else m * 2 ^ e : ℚ) : WithTop ℚ)

/-- The place of a number in the order. -/
def rank (x : Float) : WithBot (WithTop ℚ) := (parts x).rank

/-- The rank of a finite number is its value. -/
theorem rank_of_value? {x : Float} {q : ℚ} (h : value? x = some q) : rank x = (q : WithTop ℚ) := by
  unfold value? at h
  unfold rank
  rcases hparts : parts x with _ | _ | ⟨negative, m, e⟩ <;> rw [hparts] at h <;> cases h
  rfl

/-- The rank of a double that is taken apart. -/
inductive HasRank : UnpackedFloat → WithBot (WithTop ℚ) → Prop
  | lowest : HasRank (.infinity .negative) ⊥
  | highest : HasRank (.infinity .positive) ⊤
  | finite {u : UnpackedFloat} {q : ℚ} : StandsFor u q → HasRank u (q : WithTop ℚ)

/-- Every number but NaN has its rank. -/
theorem hasRank_rank {x : Float} (h : x.isNaN = false) : HasRank x.toModel.unpack (rank x) := by
  rcases hvalue : value? x with _ | q
  · change x.toModel.unpack.isNaN = false at h
    unfold value? parts at hvalue
    unfold rank parts
    rcases hx : x.toModel.unpack with ⟨_ | _⟩ | _ | s | ⟨s, m, e, hm⟩ <;> rw [hx] at h hvalue
    · exact .lowest
    · exact .highest
    · cases h
    · cases hvalue
    · cases hvalue
  · rw [rank_of_value? hvalue]
    exact .finite (standsFor_of_value? hvalue)

/-! ## Order -/

/-- Equal magnitudes have equal exponents and equal mantissas. -/
theorem Canonical.eq_of_magnitude_eq {m₁ m₂ : Nat} {e₁ e₂ : Int} (h₁ : Canonical m₁ e₁)
    (h₂ : Canonical m₂ e₂) (h : (m₁ * 2 ^ e₁ : ℚ) = m₂ * 2 ^ e₂) : e₁ = e₂ ∧ m₁ = m₂ := by
  rcases Int.lt_trichotomy e₁ e₂ with hlt | rfl | hlt
  · exact absurd h (h₁.lt_of_exponent_lt h₂ hlt).ne
  · have hpow : (2 ^ e₁ : ℚ) ≠ 0 := by positivity
    exact ⟨rfl, by exact_mod_cast mul_right_cancel₀ hpow h⟩
  · exact absurd h (h₂.lt_of_exponent_lt h₁ hlt).ne'

/-- Finite doubles are compared as equal if they stand for one value. -/
theorem StandsFor.compare_eq_eq_iff {u v : UnpackedFloat} {p q : ℚ} (hu : StandsFor u p)
    (hv : StandsFor v q) : u.compare v = some .eq ↔ p = q := by
  cases hu with
  | zero s =>
      cases hv with
      | zero t => exact iff_of_true rfl rfl
      | @positive n f hn hnf => exact iff_of_false nofun (magnitude_pos hn f).ne
      | @negative n f hn hnf =>
          exact iff_of_false nofun (neg_lt_zero.mpr (magnitude_pos hn f)).ne'
  | @positive m e hm hme =>
      have hpos := magnitude_pos hm e
      cases hv with
      | zero t => exact iff_of_false nofun hpos.ne'
      | @positive n f hn hnf =>
          refine Option.some_inj.trans ⟨fun h => ?_, fun h => ?_⟩
          · obtain ⟨he, hmn⟩ := Ordering.then_eq_eq.mp h
            rw [Int.compare_eq_eq.mp he, Nat.compare_eq_eq.mp hmn]
          · obtain ⟨rfl, rfl⟩ := hme.eq_of_magnitude_eq hnf h
            rw [Int.compare_eq_eq.mpr rfl, Nat.compare_eq_eq.mpr rfl]
            rfl
      | @negative n f hn hnf =>
          have hneg := neg_lt_zero.mpr (magnitude_pos hn f)
          exact iff_of_false nofun (hneg.trans hpos).ne'
  | @negative m e hm hme =>
      have hneg := neg_lt_zero.mpr (magnitude_pos hm e)
      cases hv with
      | zero t => exact iff_of_false nofun hneg.ne
      | @positive n f hn hnf => exact iff_of_false nofun (hneg.trans (magnitude_pos hn f)).ne
      | @negative n f hn hnf =>
          refine Option.some_inj.trans ⟨fun h => ?_, fun h => ?_⟩
          · obtain ⟨he, hmn⟩ := Ordering.then_eq_eq.mp (Ordering.swap_eq_eq.mp h)
            rw [Int.compare_eq_eq.mp he, Nat.compare_eq_eq.mp hmn]
          · obtain ⟨rfl, rfl⟩ := hme.eq_of_magnitude_eq hnf (neg_inj.mp h)
            rw [Int.compare_eq_eq.mpr rfl, Nat.compare_eq_eq.mpr rfl]
            rfl

namespace HasRank

variable {u v : UnpackedFloat} {p q : WithBot (WithTop ℚ)}

/-- Doubles compare as their ranks. -/
theorem compare_eq_lt_iff (hu : HasRank u p) (hv : HasRank v q) :
    u.compare v = some .lt ↔ p < q := by
  cases hu with
  | lowest =>
      cases hv with
      | lowest => exact iff_of_false nofun (lt_irrefl _)
      | highest => exact iff_of_true rfl bot_lt_top
      | finite hv => cases hv <;> exact iff_of_true rfl (WithBot.bot_lt_coe _)
  | highest =>
      cases hv with
      | lowest => exact iff_of_false nofun not_top_lt
      | highest => exact iff_of_false nofun (lt_irrefl _)
      | finite hv => cases hv <;> exact iff_of_false nofun not_top_lt
  | finite hu =>
      cases hv with
      | lowest => cases hu <;> exact iff_of_false nofun not_lt_bot
      | highest =>
          have hlt : ∀ r : ℚ, (((r : WithTop ℚ) : WithBot (WithTop ℚ))) < ⊤ :=
            fun r => WithBot.coe_lt_coe.mpr (WithTop.coe_lt_top r)
          cases hu <;> exact iff_of_true rfl (hlt _)
      | finite hv =>
          rw [hu.compare_eq_lt_iff hv, WithBot.coe_lt_coe, WithTop.coe_lt_coe]

/-- Doubles are compared as equal if they have one rank. -/
theorem compare_eq_eq_iff (hu : HasRank u p) (hv : HasRank v q) :
    u.compare v = some .eq ↔ p = q := by
  cases hu with
  | lowest =>
      cases hv with
      | lowest => exact iff_of_true rfl rfl
      | highest => exact iff_of_false nofun bot_ne_top
      | finite hv => cases hv <;> exact iff_of_false nofun WithBot.bot_ne_coe
  | highest =>
      cases hv with
      | lowest => exact iff_of_false nofun top_ne_bot
      | highest => exact iff_of_true rfl rfl
      | finite hv =>
          cases hv <;> exact iff_of_false nofun fun h => WithTop.top_ne_coe (WithBot.coe_inj.mp h)
  | finite hu =>
      cases hv with
      | lowest => cases hu <;> exact iff_of_false nofun WithBot.coe_ne_bot
      | highest =>
          cases hu <;> exact iff_of_false nofun fun h => WithTop.coe_ne_top (WithBot.coe_inj.mp h)
      | finite hv => rw [hu.compare_eq_eq_iff hv, WithBot.coe_inj, WithTop.coe_inj]

end HasRank

section

variable {x y : Float} (hx : x.isNaN = false) (hy : y.isNaN = false)
include hx hy

/-- Numbers are in the order of their ranks. -/
theorem lt_iff_rank_lt : x < y ↔ rank x < rank y := by
  rw [lt_iff_compare]
  exact (hasRank_rank hx).compare_eq_lt_iff (hasRank_rank hy)

/-- Numbers are equal if they have one rank. -/
theorem beq_iff_rank_eq : (x == y) = true ↔ rank x = rank y := by
  rw [← (hasRank_rank hx).compare_eq_eq_iff (hasRank_rank hy)]
  change (x.toModel.unpack.compare y.toModel.unpack == some .eq) = true ↔ _
  exact beq_iff_eq

/-- Any two numbers but NaN compare. -/
theorem exists_order? : ∃ o, order? x y = some o ∧ (o = .lt ↔ rank x < rank y) ∧
    (o = .gt ↔ rank y < rank x) := by
  simp only [order?, lt_iff_rank_lt hx hy, lt_iff_rank_lt hy hx, beq_iff_rank_eq hx hy]
  rcases lt_trichotomy (rank x) (rank y) with h | h | h
  · exact ⟨.lt, by simp [h], iff_of_true rfl h, iff_of_false nofun h.not_gt⟩
  · exact ⟨.eq, by simp [h], by simp [h], by simp [h]⟩
  · exact ⟨.gt, by simp [h, h.not_gt], iff_of_false nofun h.not_gt, iff_of_true rfl h⟩

end

/-! ## The two zeros -/

/-- Equal numbers are one number, or the two zeros. -/
theorem eq_or_zeros {x y : Float} (h : (x == y) = true) :
    x = y ∨ x = 0 ∧ y = -0 ∨ x = -0 ∧ y = 0 :=
  (Float.beq_iff_ne_nan_and_eq.mp h).2.2

/-- A number is equal to both of two equal numbers, or to none. -/
theorem beq_congr {x y : Float} (h : (x == y) = true) (z : Float) : (z == x) = (z == y) := by
  have hzero : ∀ z : Float, (z == 0) = true ↔ (z == -0) = true := by
    have hnan : (0 : Float) ≠ .nan ∧ (-0 : Float) ≠ .nan := by decide +kernel
    intro z
    rw [Float.beq_iff_ne_nan_and_eq, Float.beq_iff_ne_nan_and_eq]
    simp only [ne_eq, hnan, not_false_eq_true, true_and, and_true]
    tauto
  rw [Bool.eq_iff_iff]
  rcases eq_or_zeros h with rfl | ⟨rfl, rfl⟩ | ⟨rfl, rfl⟩
  · exact Iff.rfl
  · exact hzero z
  · exact (hzero z).symm

end Number

end Edict

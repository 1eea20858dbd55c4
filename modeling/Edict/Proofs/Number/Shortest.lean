import Edict.Proofs.Number.Decimal

/-!
# Shortest decimals

The decimal that a number is written as lies among the reals that read back as the number
(`Number.readsAs_shortest`).  No real reads back as two magnitudes (`Number.ReadsAs.unique`): half
way between two neighbours it reads back as the one with the even mantissa.

## Main definitions

* `Number.ReadsAs`: a real number is read as a certain magnitude, in terms of the two neighbours.
* `Number.isInside`: the same as the search asks it, on a decimal grid.

## Main statements

* `Number.readsAs_shortest`: the shortest decimal is read as what it was made from, for either way
  to break ties.
* `Number.ReadsAs.unique`: for magnitudes in canonical form only.
* `Number.text_injective`: finite numbers with one text are one number.
-/

namespace Edict

namespace Number

open Float.Model Float.Model.UnpackedFloat

/-! ## Grids -/

/-- A power with its negative part multiplied out. -/
theorem zpow_mul_pow_toNat {a : ℚ} (ha : a ≠ 0) (e : Int) : a ^ e * a ^ (-e).toNat = a ^ e.toNat := by
  rcases Int.le_total 0 e with h | h
  · rw [Int.toNat_of_nonpos (by omega), pow_zero, mul_one, ← zpow_natCast, Int.toNat_of_nonneg h]
  · rw [Int.toNat_of_nonpos h, ← zpow_natCast, Int.toNat_of_nonneg (by omega), ← zpow_add₀ ha]
    simp

/-- The ratio of a grid is that of `2 ^ e` and `10 ^ k`. -/
theorem gridRatio_spec (e k : Int) :
    0 < (gridRatio e k).2 ∧ ((gridRatio e k).1 : ℚ) * 10 ^ k = (gridRatio e k).2 * 2 ^ e := by
  have htwo := zpow_mul_pow_toNat (a := 2) two_ne_zero e
  have hten := zpow_mul_pow_toNat (a := 10) (by norm_num) k
  unfold gridRatio expSplit
  simp only [neg_neg, Nat.pow_eq]
  refine ⟨by positivity, ?_⟩
  push_cast
  rw [← htwo, ← hten]
  ring

/-! ## What reads back -/

/-- The real reads back as `m · 2 ^ e`: it lies between the two ends, and at one of them only if the
mantissa is even. -/
structure ReadsAs (m : Nat) (e : Int) (v : ℚ) : Prop where
  low_le : (readsBack m e).1 * 2 ^ (e - 2) ≤ v
  le_high : v ≤ (readsBack m e).2 * 2 ^ (e - 2)
  low_lt : m % 2 = 1 → (readsBack m e).1 * 2 ^ (e - 2) < v
  lt_high : m % 2 = 1 → v < (readsBack m e).2 * 2 ^ (e - 2)

section

variable {tie : Tie} {m : Nat} {e k : Int}

/-- A number reads back as itself. -/
theorem readsAs_self (hm : 0 < m) (e : Int) : ReadsAs m e (m * 2 ^ e) := by
  have hpow : (0 : ℚ) < 2 ^ (e - 2) := by positivity
  have hvalue : (m * 2 ^ e : ℚ) = (4 * m : Nat) * 2 ^ (e - 2) := by
    rw [zpow_sub₀ two_ne_zero]
    push_cast
    ring
  have hlow : (readsBack m e).1 < 4 * m := by
    unfold readsBack
    dsimp only
    split_ifs <;> omega
  have hlow' : (readsBack m e).1 * 2 ^ (e - 2) < (m * 2 ^ e : ℚ) := by
    rw [hvalue, mul_lt_mul_iff_left₀ hpow, Nat.cast_lt]
    exact hlow
  have hhigh : (m * 2 ^ e : ℚ) < (readsBack m e).2 * 2 ^ (e - 2) := by
    rw [hvalue, mul_lt_mul_iff_left₀ hpow, Nat.cast_lt]
    exact Nat.lt_add_of_pos_right (by decide)
  exact ⟨hlow'.le, hhigh.le, fun _ => hlow', fun _ => hhigh⟩

/-- The integer comparisons of the search are those of the decimals with the ends. -/
theorem grid_le_iff (e k : Int) (n c : Nat) :
    (n * (gridRatio e k).1 ≤ c * (gridRatio e k).2 ↔ (n * 2 ^ e : ℚ) ≤ c * 10 ^ k) ∧
      (c * (gridRatio e k).2 ≤ n * (gridRatio e k).1 ↔ (c * 10 ^ k : ℚ) ≤ n * 2 ^ e) := by
  obtain ⟨hq, hratio⟩ := gridRatio_spec e k
  generalize (gridRatio e k).1 = p at hratio ⊢
  generalize (gridRatio e k).2 = q at hq hratio ⊢
  have hten : (0 : ℚ) < 10 ^ k := by positivity
  have hq' : (0 : ℚ) < q := by exact_mod_cast hq
  have hleft : (n * p : ℚ) * 10 ^ k = n * 2 ^ e * q := by rw [mul_assoc, hratio]; ring
  have hright : (c * q : ℚ) * 10 ^ k = c * 10 ^ k * q := by ring
  constructor
  · rw [← mul_le_mul_iff_left₀ hq', ← hleft, ← hright, mul_le_mul_iff_left₀ hten]
    exact_mod_cast Iff.rfl
  · rw [← mul_le_mul_iff_left₀ hq', ← hleft, ← hright, mul_le_mul_iff_left₀ hten]
    exact_mod_cast Iff.rfl

/-- Whether a decimal on a grid is between the two ends, as the search compares them. -/
def isInside (m : Nat) (e k : Int) (c : Nat) : Bool :=
  if m % 2 = 0 then
    (readsBack m e).1 * (gridRatio (e - 2) k).1 ≤ c * (gridRatio (e - 2) k).2 &&
      c * (gridRatio (e - 2) k).2 ≤ (readsBack m e).2 * (gridRatio (e - 2) k).1
  else
    (readsBack m e).1 * (gridRatio (e - 2) k).1 < c * (gridRatio (e - 2) k).2 &&
      c * (gridRatio (e - 2) k).2 < (readsBack m e).2 * (gridRatio (e - 2) k).1

/-- Whichever neighbour a grid offers, it was found between the ends. -/
theorem isInside_of_onGrid? {d : Nat} (h : onGrid? tie m e k = some d) : isInside m e k d = true := by
  unfold onGrid? at h
  dsimp only at h
  split at h
  · rename_i hbelow habove
    repeat' split at h
    all_goals
      obtain rfl := Option.some.inj h
      first | exact hbelow | exact habove
  · rename_i hbelow _
    exact Option.some.inj h ▸ hbelow
  · rename_i _ habove
    exact Option.some.inj h ▸ habove
  · cases h

/-- What is between the ends reads back. -/
theorem readsAs_of_isInside {c : Nat} (h : isInside m e k c = true) : ReadsAs m e (c * 10 ^ k) := by
  obtain ⟨hlow, hlow'⟩ := grid_le_iff (e - 2) k (readsBack m e).1 c
  obtain ⟨hhigh, hhigh'⟩ := grid_le_iff (e - 2) k (readsBack m e).2 c
  unfold isInside at h
  by_cases heven : m % 2 = 0
  · simp only [if_pos heven, Bool.and_eq_true, decide_eq_true_eq] at h
    exact ⟨hlow.mp h.1, hhigh'.mp h.2, fun hodd => by omega, fun hodd => by omega⟩
  · simp only [if_neg heven, Bool.and_eq_true, decide_eq_true_eq] at h
    have hlt : ((readsBack m e).1 * 2 ^ (e - 2) : ℚ) < c * 10 ^ k :=
      not_le.mp fun hle => h.1.not_ge (hlow'.mpr hle)
    have hlt' : (c * 10 ^ k : ℚ) < (readsBack m e).2 * 2 ^ (e - 2) :=
      not_le.mp fun hle => h.2.not_ge (hhigh.mpr hle)
    exact ⟨hlt.le, hlt'.le, fun _ => hlt, fun _ => hlt'⟩

/-- A search that does not go beyond the grid of the number itself ends with a decimal that reads
back. -/
theorem readsAs_searchGrids (hm : 0 < m) (steps : Nat) (hk : k - steps = min e 0) :
    ReadsAs m e (searchGrids tie m e steps k).value := by
  induction steps generalizing k with
  | zero =>
      obtain ⟨hq, hratio⟩ := gridRatio_spec e k
      obtain rfl : k = min e 0 := by simpa using hk
      have hdvd : (gridRatio e (min e 0)).2 ∣ m * (gridRatio e (min e 0)).1 := by
        have hdown : (-min e 0).toNat = (-e).toNat := by omega
        have hcoarse : (min e 0).toNat = 0 := by omega
        unfold gridRatio expSplit
        simp only [neg_neg, Nat.pow_eq, hdown, hcoarse, pow_zero, mul_one]
        exact ((pow_dvd_pow_of_dvd (by decide : 2 ∣ 10) _).mul_left _).mul_left m
      have hq' : ((gridRatio e (min e 0)).2 : ℚ) ≠ 0 := by exact_mod_cast hq.ne'
      have hvalue : (searchGrids tie m e 0 (min e 0)).value = m * 2 ^ e := by
        show ((m * (gridRatio e (min e 0)).1 / (gridRatio e (min e 0)).2 : Nat) : ℚ) *
          10 ^ (min e 0) = _
        rw [Nat.cast_div hdvd hq', Nat.cast_mul, div_mul_eq_mul_div, mul_assoc, hratio]
        field_simp
      rw [hvalue]
      exact readsAs_self hm e
  | succ steps ih =>
      unfold searchGrids
      rcases hgrid : onGrid? tie m e k with _ | d
      · exact ih (by push_cast at hk; omega)
      · exact readsAs_of_isInside (isInside_of_onGrid? hgrid)

/-- The search begins at or above the grid of the number itself. -/
theorem min_le_coarsestGrid (m : Nat) (e : Int) : min e 0 ≤ coarsestGrid m e := by
  unfold coarsestGrid
  rw [Int.fdiv_eq_ediv_of_nonneg _ (by decide)]
  omega

/-- The shortest decimal reads back. -/
theorem readsAs_shortest (tie : Tie) (hm : 0 < m) (e : Int) : ReadsAs m e (shortest tie m e).value := by
  have hle := min_le_coarsestGrid m e
  exact readsAs_searchGrids hm _ (by omega)

end

/-! ## Neighbours -/

/-- What reads back as a magnitude is no more than half a step below it. -/
theorem le_readsBack (m : Nat) (e : Int) : 4 * m - 2 ≤ (readsBack m e).1 := by
  unfold readsBack
  dsimp only
  split_ifs <;> omega

/-- What reads back as something has a sign of its own. -/
theorem ReadsAs.pos {m : Nat} {e : Int} {v : ℚ} (h : ReadsAs m e v) (hm : 0 < m) : 0 < v := by
  have hlow : 0 < (readsBack m e).1 := Nat.lt_of_lt_of_le (by omega) (le_readsBack m e)
  have hlow' : (0 : ℚ) < (readsBack m e).1 := by exact_mod_cast hlow
  exact (by positivity : (0 : ℚ) < (readsBack m e).1 * 2 ^ (e - 2)).trans_le h.low_le

section neighbours

variable {m m' : Nat} {e e' : Int} {v : ℚ} (hv : ReadsAs m e v) (hv' : ReadsAs m' e' v)
include hv hv'

/-- Where the steps are the same, the ends of two ranges are in the order of integers. -/
theorem ReadsAs.ends_le (he : e = e') : (readsBack m' e').1 ≤ (readsBack m e).2 ∧
    (m % 2 = 1 ∨ m' % 2 = 1 → (readsBack m' e').1 < (readsBack m e).2) := by
  subst he
  have hpow : (0 : ℚ) < 2 ^ (e - 2) := by positivity
  have hcast : ∀ {a b : Nat}, ((a : ℚ) * 2 ^ (e - 2) < b * 2 ^ (e - 2) ↔ a < b) := by
    intro a b
    rw [mul_lt_mul_iff_left₀ hpow, Nat.cast_lt]
  constructor
  · exact not_lt.mp fun hlt => (hv'.low_le.trans hv.le_high).not_gt (hcast.mpr hlt)
  · rintro (hodd | hodd)
    · exact hcast.mp (hv'.low_le.trans_lt (hv.lt_high hodd))
    · exact hcast.mp ((hv'.low_lt hodd).trans_le hv.le_high)

/-- Where the steps of the second range are greater, its lower end counts double at least. -/
theorem ReadsAs.double_le (he : e < e') : 2 * (readsBack m' e').1 ≤ (readsBack m e).2 ∧
    (m % 2 = 1 → 2 * (readsBack m' e').1 < (readsBack m e).2) := by
  have hpow : (0 : ℚ) < 2 ^ (e - 2) := by positivity
  have hstep : (2 * 2 ^ (e - 2) : ℚ) ≤ 2 ^ (e' - 2) := by
    rw [← zpow_one_add₀ two_ne_zero]
    exact zpow_le_zpow_right₀ one_le_two (by omega)
  have hlow : ((2 * (readsBack m' e').1 : Nat) : ℚ) * 2 ^ (e - 2) ≤ v := by
    calc ((2 * (readsBack m' e').1 : Nat) : ℚ) * 2 ^ (e - 2)
        = (readsBack m' e').1 * (2 * 2 ^ (e - 2)) := by push_cast; ring
      _ ≤ (readsBack m' e').1 * 2 ^ (e' - 2) := by gcongr
      _ ≤ v := hv'.low_le
  constructor
  · have hle := hlow.trans hv.le_high
    rw [mul_le_mul_iff_left₀ hpow] at hle
    exact_mod_cast hle
  · intro hodd
    have hlt := hlow.trans_lt (hv.lt_high hodd)
    rw [mul_lt_mul_iff_left₀ hpow] at hlt
    exact_mod_cast hlt

/-- Of two magnitudes that the same real reads back as, the first does not come before the
second. -/
theorem ReadsAs.not_before (h : Canonical m e) (h' : Canonical m' e') :
    ¬(e < e' ∨ e = e' ∧ m < m') := by
  have hhigh : (readsBack m e).2 = 4 * m + 2 := rfl
  rintro (he | ⟨he, hm⟩)
  · obtain ⟨hle, hodd⟩ := hv.double_le hv' he
    have hleast : leastExponent < e' := lt_of_le_of_lt h.exponent_ge he
    have hfull : 2 ^ 52 ≤ m' := h'.full.resolve_right hleast.ne'
    have hmantissa := h.mantissa_lt
    have hlow : 2 ^ 54 - 1 ≤ (readsBack m' e').1 := by
      unfold readsBack
      dsimp only
      simp only [Nat.pow_eq]
      split_ifs with hpower
      · omega
      · have hne : m' ≠ 2 ^ 52 := fun heq => hpower ⟨heq, hleast⟩
        omega
    -- the greatest mantissa, which is odd, is next to the least full one
    rcases Nat.mod_two_eq_zero_or_one m with heven | hone
    · omega
    · have hlt := hodd hone
      omega
  · obtain ⟨hle, hodd⟩ := hv.ends_le hv' he
    have hlow := le_readsBack m' e'
    rcases Nat.mod_two_eq_zero_or_one m with heven | hone
    · have hlt := hodd (.inr (by omega))
      omega
    · have hlt := hodd (.inl hone)
      omega

end neighbours

/-- No real reads back as two magnitudes. -/
theorem ReadsAs.unique {m m' : Nat} {e e' : Int} {v : ℚ} (hv : ReadsAs m e v)
    (hv' : ReadsAs m' e' v) (h : Canonical m e) (h' : Canonical m' e') : m = m' ∧ e = e' := by
  have hbefore := hv.not_before hv' h h'
  have hbehind := hv'.not_before hv h' h
  omega

/-! ## Numbers and their texts -/

/-- A double is determined by what it is taken apart into. -/
theorem eq_of_unpack_eq {x y : Float} (h : x.toModel.unpack = y.toModel.unpack) : x = y := by
  obtain ⟨⟨xbits, hx⟩⟩ := x
  obtain ⟨⟨ybits, hy⟩⟩ := y
  have hbits : xbits.toBitVec = ybits.toBitVec :=
    (Float.Model.UnpackedFloat.unpack_inj_of_valid hx hy).mp h
  obtain rfl := UInt64.toBitVec_inj.mp hbits
  rfl

/-- A finite number is a zero or has a magnitude. -/
theorem exists_parts {x : Float} (h : x.isFinite = true) :
    ∃ b m e, parts x = .finite b m e ∧ (m = 0 ∧ e = 0 ∨ 0 < m ∧ Canonical m e) := by
  change x.toModel.unpack.isFinite = true at h
  unfold parts
  rcases hx : x.toModel.unpack with s | _ | s | ⟨s, m, e, hm⟩ <;> rw [hx] at h
  · cases h
  · cases h
  · exact ⟨_, 0, 0, rfl, .inl ⟨rfl, rfl⟩⟩
  · exact ⟨_, m, e, rfl, .inr ⟨hm, canonical_of_unpack hx⟩⟩

/-- Finite numbers with the same parts are the same. -/
theorem eq_of_parts_eq {x y : Float} (hx : x.isFinite = true) (h : parts x = parts y) : x = y := by
  have hsign : ∀ s t : UnpackedFloat.Sign, (s == .negative) = (t == .negative) → s = t := by
    rintro (_ | _) (_ | _) h <;> first | rfl | cases h
  apply eq_of_unpack_eq
  change x.toModel.unpack.isFinite = true at hx
  unfold parts at h
  generalize x.toModel.unpack = u at hx h ⊢
  generalize y.toModel.unpack = v at h ⊢
  rcases u with _ | _ | s | ⟨s, m, e, hm⟩
  · cases hx
  · cases hx
  · rcases v with _ | _ | t | ⟨t, n, f, hn⟩
    · cases h
    · cases h
    · exact congrArg zero (hsign s t (Parts.finite.inj h).1)
    · exact absurd (Parts.finite.inj h).2.1 hn.ne
  · rcases v with _ | _ | t | ⟨t, n, f, hn⟩
    · cases h
    · cases h
    · exact absurd (Parts.finite.inj h).2.1 hm.ne'
    · obtain ⟨hs, rfl, rfl⟩ := Parts.finite.inj h
      rw [hsign s t hs]

/-- The text of a finite number determines the number. -/
theorem text_injective {x y : Float} (hx : x.isFinite = true) (hy : y.isFinite = true)
    (h : text x = text y) : x = y := by
  obtain ⟨b, m, e, hparts, hcases⟩ := exists_parts hx
  obtain ⟨b', m', e', hparts', hcases'⟩ := exists_parts hy
  obtain ⟨rfl, hvalue⟩ := sign_and_value_eq hparts hparts' h
  have hpositive : ∀ {m e}, 0 < m → ReadsAs m e (decimalOf m e).value := by
    intro m e hm
    unfold decimalOf
    rw [if_neg hm.ne']
    exact readsAs_shortest .up hm e
  have hzero : ∀ e, (decimalOf 0 e).value = 0 := by simp [decimalOf, Decimal.value]
  refine eq_of_parts_eq hx (hparts.trans (Eq.trans ?_ hparts'.symm))
  rcases hcases with ⟨rfl, rfl⟩ | ⟨hm, hcanonical⟩ <;>
    rcases hcases' with ⟨rfl, rfl⟩ | ⟨hm', hcanonical'⟩
  · rfl
  · rw [hzero] at hvalue
    exact absurd hvalue ((hpositive hm').pos hm').ne
  · rw [hzero] at hvalue
    exact absurd hvalue ((hpositive hm).pos hm).ne'
  · obtain ⟨rfl, rfl⟩ := (hpositive hm).unique (hvalue ▸ hpositive hm') hcanonical hcanonical'
    rfl

end Number

end Edict

import Edict.Number.Reading
import Edict.Proofs.Number.Text

/-!
# Decimals

A text in positional notation is the decimal that it writes, whatever digits and exponent it was
written from (`Number.pointValue_positionalText`), and the text of a finite number shows its sign.
So two finite numbers with one text have one sign, and their shortest decimals have one value
(`Number.sign_and_value_eq`).

## Main definitions

* `Number.Decimal.value`, `Number.pointValue`: the rational number that a decimal, or a text in
  positional notation without a sign, stands for.

## Main statements

* `Number.pointValue_positionalText`: the notation keeps the value, for every decimal.
* `Number.sign_and_value_eq`: two texts that agree come from one sign and one value.  This is for
  finite numbers; whether they are one number is left to the next step, where decimals are read.
-/

namespace Edict

namespace Number

/-! ## Values of digits -/

section digits

variable {ds fs : List Char}

/-- More digits go on from the value of those in front. -/
theorem digitsValue_append (ds fs : List Char) :
    digitsValue (ds ++ fs) = Nat.ofDigitChars 10 fs (digitsValue ds) :=
  List.foldl_append

/-- The digits of a number have its value. -/
theorem digitsValue_repr (n : Nat) : digitsValue (Nat.repr n).toList = n := by
  rw [Nat.repr, String.toList_ofList]
  exact Nat.ofDigitChars_toDigits (by decide) (by decide)

/-- A zero behind the digits is a factor of ten. -/
theorem digitsValue_append_zeros (ds : List Char) (k : Nat) :
    digitsValue (ds ++ (zeros k).toList) = digitsValue ds * 10 ^ k := by
  rw [digitsValue_append, zeros, String.toList_ofList]
  generalize digitsValue ds = n
  induction k generalizing n with
  | zero => simp
  | succ k ih =>
      rw [List.replicate_succ, Nat.ofDigitChars_cons, ih, pow_succ']
      simp only [Nat.sub_self]
      ring

/-- Zeros before the digits do not count. -/
theorem digitsValue_zeros_append (ds : List Char) (k : Nat) :
    digitsValue ((zeros k).toList ++ ds) = digitsValue ds := by
  have hzeros : digitsValue (zeros k).toList = 0 :=
    (digitsValue_append_zeros [] k).trans (Nat.zero_mul _)
  rw [digitsValue_append, hzeros]
  rfl

end digits

/-! ## Values of decimals -/

/-- What a decimal stands for. -/
def Decimal.value (d : Decimal) : ℚ := d.digits * 10 ^ d.exponent

/-- What digits with a point between them, or with none, stand for. -/
def pointValue (cs : List Char) : ℚ :=
  let front := cs.takeWhile Char.isDigit
  let fraction := (cs.dropWhile Char.isDigit).tail
  digitsValue (front ++ fraction) / 10 ^ fraction.length

section point

variable {ds fs : List Char} (hds : ∀ d ∈ ds, d.isDigit = true)
include hds

/-- Digits without a point have their value. -/
theorem pointValue_whole : pointValue ds = digitsValue ds := by
  have hdrop : ds.dropWhile Char.isDigit = [] := List.dropWhile_eq_nil_iff.mpr hds
  unfold pointValue
  rw [List.takeWhile_eq_self_iff.mpr hds, hdrop]
  simp

/-- Each digit behind the point divides by ten. -/
theorem pointValue_fraction :
    pointValue (ds ++ '.' :: fs) = digitsValue (ds ++ fs) / 10 ^ fs.length := by
  have htake : (ds ++ '.' :: fs).takeWhile Char.isDigit = ds := by
    rw [List.takeWhile_append_of_pos hds]
    simp
  have hdrop : (ds ++ '.' :: fs).dropWhile Char.isDigit = '.' :: fs := by
    rw [List.dropWhile_append_of_pos hds]
    simp
  unfold pointValue
  rw [htake, hdrop, List.tail_cons]

end point

/-- A text in positional notation stands for the decimal that it was written from. -/
theorem pointValue_positionalText (d : Decimal) :
    pointValue (positionalText "" d).toList = d.value := by
  have hdigits := Digits.ofNat d.digits
  have hvalue := digitsValue_repr d.digits
  unfold positionalText Decimal.value
  generalize (Nat.repr d.digits).toList = digits at hdigits hvalue ⊢
  dsimp only
  split_ifs with hwhole hpoint
  · obtain ⟨k, hk⟩ := Int.eq_ofNat_of_zero_le hwhole
    simp only [String.toList_append, String.toList_ofList, String.toList_empty, List.append_nil, hk,
      Int.toNat_natCast, zpow_natCast]
    rw [pointValue_whole, digitsValue_append_zeros, hvalue]
    · push_cast
      rfl
    · exact fun c hc => (List.mem_append.mp hc).elim (hdigits.isDigit c) (isDigit_of_mem_zeros c)
  · -- the point stands between two of the digits
    have hlength : (digits.drop ((digits.length : Int) + d.exponent).toNat).length =
        (-d.exponent).toNat := by
      rw [List.length_drop]
      omega
    simp only [String.toList_append, String.toList_ofList]
    rw [show ".".toList = ['.'] from rfl, List.append_assoc, List.singleton_append,
      pointValue_fraction fun c hc => hdigits.isDigit c (List.take_subset _ _ hc),
      List.take_append_drop, hvalue, hlength, div_eq_mul_inv, ← zpow_natCast, ← zpow_neg]
    congr 2
    omega
  · have hlength : ((zeros (-((digits.length : Int) + d.exponent)).toNat).toList ++ digits).length =
        (-d.exponent).toNat := by
      simp only [zeros, String.toList_ofList, List.length_append, List.length_replicate]
      omega
    have hzero : digitsValue (['0'] ++ ((zeros (-((digits.length : Int) + d.exponent)).toNat).toList ++
        digits)) = d.digits := by
      rw [digitsValue_append]
      exact (digitsValue_zeros_append digits _).trans hvalue
    have hfront : "0.".toList = ['0'] ++ ['.'] := rfl
    simp only [String.toList_append, String.toList_ofList]
    rw [hfront, List.append_assoc, List.append_assoc, List.singleton_append (x := '.'),
      pointValue_fraction (by simp), hzero, hlength, div_eq_mul_inv, ← zpow_natCast, ← zpow_neg]
    congr 2
    omega

/-- A text in positional notation begins with a digit. -/
theorem head_positionalText (d : Decimal) :
    ∃ c cs, (positionalText "" d).toList = c :: cs ∧ c.isDigit = true := by
  rcases positionalText_digits d with hds | ⟨ds, fs, hds, -, heq⟩
  · obtain ⟨c, cs, hcs⟩ := List.exists_cons_of_ne_nil hds.ne_nil
    exact ⟨c, cs, hcs, hds.isDigit c (hcs ▸ List.mem_cons_self)⟩
  · obtain ⟨c, cs, rfl⟩ := List.exists_cons_of_ne_nil hds.ne_nil
    exact ⟨c, cs ++ '.' :: fs, heq, hds.isDigit c List.mem_cons_self⟩

/-! ## Texts of finite numbers -/

/-- The shortest decimal of a magnitude; zero is `0`. -/
def decimalOf (m : Nat) (e : Int) : Decimal := if m = 0 then ⟨0, 0⟩ else shortest .up m e

/-- The text of a finite number is its sign and the text of its shortest decimal. -/
theorem text_eq {x : Float} {negative : Bool} {m : Nat} {e : Int}
    (h : parts x = .finite negative m e) :
    (text x).toList =
      (if negative then ['-'] else []) ++ (positionalText "" (decimalOf m e)).toList := by
  unfold text write
  rw [h]
  cases negative
  · rfl
  · exact String.toList_append

/-- Numbers with one text have one sign, and their decimals have one value. -/
theorem sign_and_value_eq {x y : Float} {b b' : Bool} {m m' : Nat} {e e' : Int}
    (hx : parts x = .finite b m e) (hy : parts y = .finite b' m' e') (h : text x = text y) :
    b = b' ∧ (decimalOf m e).value = (decimalOf m' e').value := by
  have hlist := congrArg String.toList h
  rw [text_eq hx, text_eq hy] at hlist
  obtain ⟨c, cs, hc, hdigit⟩ := head_positionalText (decimalOf m e)
  obtain ⟨c', cs', hc', hdigit'⟩ := head_positionalText (decimalOf m' e')
  have hminus : ('-').isDigit = false := by decide
  obtain ⟨rfl, hsame⟩ : b = b' ∧
      (positionalText "" (decimalOf m e)).toList = (positionalText "" (decimalOf m' e')).toList := by
    cases b <;> cases b'
    · exact ⟨rfl, hlist⟩
    · rw [hc] at hlist
      obtain ⟨rfl, -⟩ := List.cons.inj hlist
      rw [hminus] at hdigit
      cases hdigit
    · rw [hc'] at hlist
      obtain ⟨rfl, -⟩ := List.cons.inj hlist
      rw [hminus] at hdigit'
      cases hdigit'
    · exact ⟨rfl, List.append_cancel_left hlist⟩
  refine ⟨rfl, ?_⟩
  rw [← pointValue_positionalText, ← pointValue_positionalText, hsame]

end Number

end Edict

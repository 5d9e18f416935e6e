import Mathlib.Tactic.SplitIfs
import ProtoSchema.Number.Shortest

/-!
# Decimals read back

Rounding to the binary format depends on the value of a decimal and on nothing else: not on how a
fraction is written, and not on the exponents that `Decimal.toBinary64` settles beforehand, where it
comes to what rounding would have come to (`Decimal.toBinary64_eq_nearest`).  So zeros at the end of
the digits can be moved into the exponent and back.

The magnitudes of the format are fractions that rounding leaves as they are (`nearestRank_units`).
With that the decimal of a magnitude, which `Binary64.shortest` picks among those that read back,
does read back (`Binary64.toBinary64_shortest`).

## What is here

* `Binary64.nearestRank_mul` — a fraction in other terms rounds alike.
* `Binary64.nearestRank_eq_zero`, `Binary64.infinityRank_le_nearestRank` — the two ends of the
  format.
* `Binary64.units_eq`, `Binary64.nearestRank_units` — within a binade the magnitudes are equally
  spaced, and rounding a magnitude gives it back.
* `Decimal.toBinary64_eq_nearest` — the shortcuts for large exponents of either sign are exact.
  Both are bounds on a power of ten by a power of two (`Decimal.two_pow_le_ten_pow`), since the size
  of the coefficient is known to a factor of two.
* `Decimal.toBinary64_mul_pow`, `Decimal.toBinary64_trimmed` — zeros at the end.
* `Binary64.toBinary64_exactDecimal`, `Binary64.toBinary64_of_onGrid?`,
  `Binary64.toBinary64_shortest` — what the search for a decimal comes to reads back.  The case of
  the grids is immediate, since a grid only answers with a decimal that it has read back; that the
  exact value does takes an argument.

That the decimal is the *shortest* is not proved, and nothing that is proved here needs it.
-/

set_option autoImplicit false

namespace ProtoSchema

-- Powers are those of the core library, whatever else is imported.
attribute [local instance(high)] instPowNat

namespace Binary64

/-! ## Rounding a fraction -/

variable {num den k : Nat}

/-- Rounding depends on the fraction and not on its terms. -/
theorem roundHalfEven_mul (hk : 0 < k) :
    roundHalfEven (k * num) (k * den) = roundHalfEven num den := by
  have hless : 2 * (k * (num % den)) < k * den ↔ 2 * (num % den) < den := by
    rw [← Nat.mul_assoc, Nat.mul_comm 2 k, Nat.mul_assoc]
    exact Nat.mul_lt_mul_left hk
  have hgreater : k * den < 2 * (k * (num % den)) ↔ den < 2 * (num % den) := by
    rw [← Nat.mul_assoc, Nat.mul_comm 2 k, Nat.mul_assoc]
    exact Nat.mul_lt_mul_left hk
  simp only [roundHalfEven, Nat.mul_div_mul_left _ _ hk, Nat.mul_mod_mul_left, hless, hgreater]

/-- A whole number is not rounded. -/
theorem roundHalfEven_mul_left (hden : 0 < den) : roundHalfEven (k * den) den = k := by
  simp [roundHalfEven, Nat.mul_div_cancel _ hden, hden]

/-- The same fraction in other terms has the same rank. -/
theorem nearestRank_mul (hk : 0 < k) : nearestRank (k * num) (k * den) = nearestRank num den := by
  have hscaled : k * num * 2 ^ unitExponent = k * (num * 2 ^ unitExponent) := Nat.mul_assoc _ _ _
  simp only [nearestRank, hscaled, Nat.mul_div_mul_left _ _ hk, Nat.mul_assoc k den,
    roundHalfEven_mul hk]

theorem nearestRank_zero (hden : 0 < den) : nearestRank 0 den = 0 := by
  simp [nearestRank, roundHalfEven, hden]

/-- A fraction of less than half the smallest magnitude rounds to zero. -/
theorem nearestRank_eq_zero (h : 2 * (num * 2 ^ unitExponent) < den) : nearestRank num den = 0 := by
  have hlt : num * 2 ^ unitExponent < den := by omega
  simp only [nearestRank, Nat.div_eq_of_lt hlt]
  simp [roundHalfEven, Nat.div_eq_of_lt hlt, Nat.mod_eq_of_lt hlt, h]

/-- The finite numbers end below `2 ^ 1024`. -/
theorem infinityRank_le_nearestRank {bits : Nat} (hbits : 1025 ≤ bits) (h : 2 ^ bits ≤ num) :
    infinityRank ≤ nearestRank num 1 := by
  have hscaled : 2 ^ (bits + unitExponent) ≤ num * 2 ^ unitExponent := by
    rw [Nat.pow_add]
    exact Nat.mul_le_mul_right _ h
  have hpos : num * 2 ^ unitExponent ≠ 0 :=
    Nat.ne_of_gt (Nat.lt_of_lt_of_le (Nat.two_pow_pos _) hscaled)
  have hlog : bits + unitExponent ≤ (num * 2 ^ unitExponent).log2 := (Nat.le_log2 hpos).mpr hscaled
  have hshift : 2047 ≤ (num * 2 ^ unitExponent).log2 - fractionBits :=
    Nat.le_sub_of_add_le (Nat.le_trans (Nat.add_le_add_right hbits unitExponent) hlog)
  calc infinityRank = 2047 * 2 ^ fractionBits := by decide
    _ ≤ ((num * 2 ^ unitExponent / 1).log2 - fractionBits) * 2 ^ fractionBits := by
      rw [Nat.div_one]
      exact Nat.mul_le_mul_right _ hshift
    _ ≤ nearestRank num 1 := Nat.le_add_right _ _

/-! ## The magnitudes of the format -/

theorem log2_mul_pow {n bits exponent : Nat} (hlow : 2 ^ bits ≤ n) (hhigh : n < 2 ^ (bits + 1)) :
    (n * 2 ^ exponent).log2 = bits + exponent := by
  have hn : n ≠ 0 := Nat.ne_of_gt (Nat.lt_of_lt_of_le (Nat.two_pow_pos _) hlow)
  have hne : n * 2 ^ exponent ≠ 0 := Nat.mul_ne_zero hn (Nat.ne_of_gt (Nat.two_pow_pos _))
  rw [Nat.log2_eq_iff hne, Nat.add_right_comm, Nat.pow_add, Nat.pow_add _ _ exponent]
  exact ⟨Nat.mul_le_mul_right _ hlow, Nat.mul_lt_mul_of_pos_right hhigh (Nat.two_pow_pos _)⟩

/-- In a binade above the first two the magnitudes are the significands, doubled over and over. -/
theorem units_eq {rank exponent : Nat} (h : rank / 2 ^ fractionBits = exponent + 1) :
    units rank = (2 ^ fractionBits + rank % 2 ^ fractionBits) * 2 ^ exponent := by
  rw [units, h, if_neg (Nat.succ_ne_zero exponent), Nat.add_sub_cancel]

/-- In the first two binades the rank is the magnitude, in units of the smallest one. -/
theorem units_eq_self {rank : Nat} (h : rank < 2 ^ fractionBits) : units rank = rank := by
  rw [units, if_pos (Nat.div_eq_of_lt h), Nat.mod_eq_of_lt h]

/-- **Rounding leaves the magnitudes of the format as they are.** -/
theorem nearestRank_units (rank : Nat) : nearestRank (units rank) (2 ^ unitExponent) = rank := by
  have hden : 0 < 2 ^ unitExponent := Nat.two_pow_pos _
  rw [nearestRank, Nat.mul_div_cancel _ hden]
  generalize 2 ^ unitExponent = unit at hden
  by_cases hlt : rank < 2 ^ fractionBits
  · have hshift : rank.log2 - fractionBits = 0 := by
      by_cases h0 : rank = 0
      · simp [h0]
      · exact Nat.sub_eq_zero_of_le (Nat.le_of_lt ((Nat.log2_lt h0).mpr hlt))
    rw [units_eq_self hlt, hshift, Nat.pow_zero, Nat.mul_one, roundHalfEven_mul_left hden,
      Nat.zero_mul, Nat.zero_add]
  · have hpos : 0 < rank / 2 ^ fractionBits := Nat.div_pos (Nat.not_lt.mp hlt) (Nat.two_pow_pos _)
    obtain ⟨exponent, hexp⟩ := Nat.exists_eq_add_of_lt hpos
    rw [Nat.zero_add] at hexp
    have hsplit := Nat.div_add_mod rank (2 ^ fractionBits)
    have hfraction : rank % 2 ^ fractionBits < 2 ^ fractionBits := Nat.mod_lt _ (Nat.two_pow_pos _)
    have hshift : (units rank).log2 - fractionBits = exponent := by
      rw [units_eq hexp, log2_mul_pow (Nat.le_add_right _ _), Nat.add_sub_cancel_left]
      rw [Nat.pow_succ, Nat.mul_two]
      exact Nat.add_lt_add_left hfraction _
    have hscaled : units rank * unit =
        (2 ^ fractionBits + rank % 2 ^ fractionBits) * (unit * 2 ^ exponent) := by
      rw [units_eq hexp, Nat.mul_assoc, Nat.mul_comm (2 ^ exponent)]
    rw [hshift, hscaled, roundHalfEven_mul_left (Nat.mul_pos hden (Nat.two_pow_pos _))]
    rw [hexp, Nat.mul_succ, Nat.add_assoc] at hsplit
    rw [Nat.mul_comm exponent, hsplit]

/-! ## Signs and ranks -/

theorem ofRank_eq_infinity {negative : Bool} {rank : Nat} (h : infinityRank ≤ rank) :
    ofRank negative rank = .infinity negative :=
  dif_neg (Nat.not_lt.mpr h)

theorem ofRank_zero (negative : Bool) : ofRank negative 0 = zero negative := rfl

theorem ofRank_val (negative : Bool) (rank : Fin infinityRank) :
    ofRank negative rank = .finite negative rank :=
  dif_pos rank.isLt

end Binary64

namespace Decimal

open Binary64

variable {negative : Bool} {coefficient : Nat} {exponent : Int}

/-- Three binary places are worth less than one decimal place. -/
theorem two_pow_le_ten_pow {k : Nat} (n : Nat) (h : n ≤ 3 * k) : 2 ^ n ≤ 10 ^ k :=
  calc 2 ^ n ≤ 2 ^ (3 * k) := Nat.pow_le_pow_right (by decide) h
    _ = 8 ^ k := Nat.pow_mul 2 3 k
    _ ≤ 10 ^ k := Nat.pow_le_pow_left (by decide) k

theorem two_mul_lt_ten_pow {c j k : Nat} (n : Nat) (hc : c < 10 ^ j) (hn : n + 1 ≤ 3 * k) :
    2 * (c * 2 ^ n) < 10 ^ (j + k) :=
  calc 2 * (c * 2 ^ n) = c * 2 ^ (n + 1) := by rw [Nat.pow_succ', Nat.mul_left_comm]
    _ < 10 ^ j * 2 ^ (n + 1) := Nat.mul_lt_mul_of_pos_right hc (Nat.two_pow_pos _)
    _ ≤ 10 ^ j * 10 ^ k := Nat.mul_le_mul_left _ (two_pow_le_ten_pow _ hn)
    _ = 10 ^ (j + k) := (Nat.pow_add 10 j k).symm

/-- **The exponents that are settled beforehand come to what rounding comes to.** -/
theorem toBinary64_eq_nearest (negative : Bool) (d : Decimal) :
    d.toBinary64 negative =
      .nearest negative (d.coefficient * 10 ^ d.exponent.toNat) (10 ^ (-d.exponent).toNat) := by
  have hden : 0 < 10 ^ (-d.exponent).toNat := Nat.pow_pos (by decide)
  have hlimit : exponentLimit = 400 := rfl
  rw [toBinary64]
  split_ifs with hzero hlarge hsmall
  · rw [hzero, Nat.zero_mul, nearest, nearestRank_zero hden, ofRank_zero]
  · have hneg : (-d.exponent).toNat = 0 := by omega
    have hnum : 2 ^ (3 * d.exponent.toNat) ≤ d.coefficient * 10 ^ d.exponent.toNat :=
      Nat.le_trans (two_pow_le_ten_pow _ (Nat.le_refl _))
        (Nat.le_mul_of_pos_left _ (Nat.pos_of_ne_zero hzero))
    rw [hneg, Nat.pow_zero, nearest,
      ofRank_eq_infinity (infinityRank_le_nearestRank (by omega) hnum)]
  · have hexp : d.exponent.toNat = 0 := by omega
    have hdigits : d.coefficient < 10 ^ (d.coefficient.log2 + 1) :=
      Nat.lt_of_lt_of_le Nat.lt_log2_self (two_pow_le_ten_pow _ (by omega))
    obtain ⟨k, hk⟩ : ∃ k, (-d.exponent).toNat = d.coefficient.log2 + 1 + k :=
      Nat.exists_eq_add_of_le (by omega)
    have hlt := two_mul_lt_ten_pow unitExponent hdigits (show 1074 + 1 ≤ 3 * k by omega)
    rw [← hk] at hlt
    rw [hexp, Nat.pow_zero, Nat.mul_one, nearest, nearestRank_eq_zero hlt, ofRank_zero]
  · rfl

/-- A zero at the end of the digits is as good as one more in the exponent. -/
theorem toBinary64_mul_ten (negative : Bool) (coefficient : Nat) (exponent : Int) :
    toBinary64 negative ⟨10 * coefficient, exponent⟩ =
      toBinary64 negative ⟨coefficient, exponent + 1⟩ := by
  simp only [toBinary64_eq_nearest]
  rcases Int.lt_or_le exponent 0 with h | h
  · have hup : exponent.toNat = 0 := by omega
    have hup' : (exponent + 1).toNat = 0 := by omega
    have hdown : (-exponent).toNat = (-(exponent + 1)).toNat + 1 := by omega
    rw [hup, hup', hdown, Nat.pow_zero, Nat.mul_one, Nat.mul_one, Nat.pow_succ', nearest,
      nearestRank_mul (by decide), nearest]
  · have hup : (exponent + 1).toNat = exponent.toNat + 1 := by omega
    have hdown : (-exponent).toNat = 0 := by omega
    have hdown' : (-(exponent + 1)).toNat = 0 := by omega
    rw [hup, hdown, hdown', Nat.pow_succ', Nat.mul_comm 10 coefficient, Nat.mul_assoc]

/-- Zeros at the end of the digits are as good as a larger exponent. -/
theorem toBinary64_mul_pow (negative : Bool) (coefficient : Nat) (exponent : Int) (zeros : Nat) :
    toBinary64 negative ⟨10 ^ zeros * coefficient, exponent⟩ =
      toBinary64 negative ⟨coefficient, exponent + zeros⟩ := by
  induction zeros generalizing exponent with
  | zero => simp
  | succ zeros ih =>
    rw [Nat.pow_succ', Nat.mul_assoc, toBinary64_mul_ten, ih, Int.add_assoc,
      Int.add_comm 1, Int.natCast_succ]

/-- A decimal without zeros at its end rounds to the same number. -/
theorem toBinary64_trimmed (negative : Bool) (d : Decimal) :
    d.trimmed.toBinary64 negative = d.toBinary64 negative := by
  fun_induction trimmed d with
  | case1 d h ih =>
    rw [ih, ← toBinary64_mul_ten, Nat.mul_div_cancel' (Nat.dvd_of_mod_eq_zero h.2)]
  | case2 d h => rfl

end Decimal

namespace Binary64

/-! ## The decimal of a magnitude -/

variable {rank : Nat}

theorem ten_pow (n : Nat) : 10 ^ n = 5 ^ n * 2 ^ n := Nat.mul_pow 5 2 n

/-- The exact value of a magnitude reads back to it. -/
theorem toBinary64_exactDecimal (negative : Bool) (rank : Nat) :
    (exactDecimal rank).toBinary64 negative = ofRank negative rank := by
  have hup : (-(unitExponent : Int)).toNat = 0 := by decide
  have hdown : (-(-(unitExponent : Int))).toNat = unitExponent := by decide
  simp only [Decimal.toBinary64_eq_nearest, exactDecimal, nearest, hup, hdown]
  rw [Nat.pow_zero, Nat.mul_one, ten_pow, Nat.mul_comm (units rank),
    nearestRank_mul (Nat.pow_pos (by decide)), nearestRank_units]

/-- A decimal that is found on a grid reads back, for that is what it was asked for. -/
theorem toBinary64_of_onGrid? {exponent : Int} {d : Decimal} (h : onGrid? rank exponent = some d) :
    d.toBinary64 false = ofRank false rank := by
  simp only [onGrid?] at h
  split at h
  · cases h
  · rename_i hbelow _
    cases h
    exact beq_iff_eq.mp hbelow
  · rename_i habove
    cases h
    exact beq_iff_eq.mp habove
  · rename_i hbelow habove
    split at h <;> cases h
    · exact beq_iff_eq.mp hbelow
    · exact beq_iff_eq.mp habove

/-- **The decimal that is written for a magnitude reads back to it.** -/
theorem toBinary64_shortest (rank : Nat) :
    (shortest rank).toBinary64 false = ofRank false rank := by
  rw [shortest, Decimal.toBinary64_trimmed]
  cases h : (List.range maxDigits).findSome? fun (n : Nat) ↦
      onGrid? rank (decimalPlaces rank - (n + 1 : Nat)) with
  | none => exact toBinary64_exactDecimal false rank
  | some d =>
    obtain ⟨n, -, hn⟩ := List.exists_of_findSome?_eq_some h
    exact toBinary64_of_onGrid? hn

end Binary64

end ProtoSchema

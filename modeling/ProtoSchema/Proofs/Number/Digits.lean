import Mathlib.Data.List.Basic
import Mathlib.Data.List.Induction
import Mathlib.Tactic.IntervalCases
import ProtoSchema.Token.Numeral

/-!
# Numbers and their digits

`ofDigits` adds up digits from the left, and `Nat.toDigits` of the core library takes a number apart
from the right.  They know nothing of each other, and neither do the two ways in which they know the
digits themselves: `digitValue` is an arithmetic of character codes, and `Nat.digitChar` is a table.
Here they are brought together, for all bases up to sixteen.

## What is here

* `IsDigitOf base c` — the character is a digit of the base, said with the table.  The three tests
  of the scanner are this for the bases ten, eight and sixteen (`isDigit_iff`, `isOctalDigit_iff`,
  `isHexDigit_iff`), and `digitValue_eq` says that the arithmetic finds the place in the table.
* `ofDigits_toDigits` — the digits of a number add up to the number.
* `DigitsOf base n digits` — the characters are the digits of `n`, behind zeros perhaps and with
  letters of either case.  This is what a numeral spells, and nothing in it is due to the scanner.
* `digitsOf_iff` — **the digits that are read are the digits of the number that is found.**
  Characters spell `n` exactly when there are some, all of them are digits of the base, and they add
  up to `n`.  So it does not matter which of the two says what the value of a numeral is.
* `exists_toDigits_eq_cons` — what is written in base ten begins with a zero only if it is nothing
  else, and so it is never taken for a number in another base.
-/

set_option autoImplicit false

namespace ProtoSchema

-- Powers are those of the core library, whatever else is imported.
attribute [local instance(high)] instPowNat

variable {base n v : Nat} {c : Char} {digits : List Char}

/-! ## Single digits -/

/-- The character is a digit of the base; from ten on the digits are letters, of either case. -/
def IsDigitOf (base : Nat) (c : Char) : Prop := ∃ v < base, c.toLower = v.digitChar

theorem toNat_toLower (c : Char) :
    c.toLower.toNat = if 65 ≤ c.toNat ∧ c.toNat ≤ 90 then c.toNat + 32 else c.toNat := by
  have hupper : c.val ≥ 'A'.val ∧ c.val ≤ 'Z'.val ↔ 65 ≤ c.toNat ∧ c.toNat ≤ 90 := by
    rw [ge_iff_le, UInt32.le_iff_toNat_le, UInt32.le_iff_toNat_le]
    rfl
  by_cases h : 65 ≤ c.toNat ∧ c.toNat ≤ 90
  · delta Char.toLower
    rw [if_pos h, dif_pos (hupper.mpr h), Char.toNat_mk, UInt32.toNat_add]
    have hsum : c.val.toNat + 32 < 2 ^ (32 : Nat) := by
      rw [Char.toNat_val]
      omega
    exact Nat.mod_eq_of_lt hsum
  · delta Char.toLower
    rw [if_neg h, dif_neg (mt hupper.mp h)]

theorem toNat_digitChar (hv : v < 16) :
    v.digitChar.toNat = if v < 10 then 48 + v else 87 + v := by
  interval_cases v <;> rfl

theorem isDigit_iff_toNat : c.isDigit ↔ 48 ≤ c.toNat ∧ c.toNat ≤ 57 := Char.isDigit_iff_toNat

theorem isLower_iff_toNat : c.isLower ↔ 97 ≤ c.toNat ∧ c.toNat ≤ 122 := by
  delta Char.isLower
  rw [Bool.and_eq_true, decide_eq_true_eq, decide_eq_true_eq, ge_iff_le,
    UInt32.le_iff_toNat_le, UInt32.le_iff_toNat_le]
  rfl

theorem isOctalDigit_iff_toNat : isOctalDigit c ↔ 48 ≤ c.toNat ∧ c.toNat ≤ 55 := by
  rw [isOctalDigit, Bool.and_eq_true, decide_eq_true_eq, decide_eq_true_eq, Char.le_def,
    Char.le_def, UInt32.le_iff_toNat_le, UInt32.le_iff_toNat_le]
  rfl

theorem isHexDigit_iff_toNat : isHexDigit c ↔ (48 ≤ c.toNat ∧ c.toNat ≤ 57) ∨
    (97 ≤ c.toNat ∧ c.toNat ≤ 102) ∨ 65 ≤ c.toNat ∧ c.toNat ≤ 70 := by
  simp only [isHexDigit, Bool.or_eq_true, Bool.and_eq_true, decide_eq_true_eq, isDigit_iff_toNat,
    Char.le_def, UInt32.le_iff_toNat_le, or_assoc]
  rfl

/-- The arithmetic of character codes finds the place of a digit in the table. -/
theorem digitValue_eq (hv : v < 16) (hc : c.toLower = v.digitChar) : digitValue c = v := by
  have hcode := congrArg Char.toNat hc
  rw [toNat_toLower, toNat_digitChar hv] at hcode
  have hzero : '0'.toNat = 48 := rfl
  have ha : 'a'.toNat = 97 := rfl
  have hA : 'A'.toNat = 65 := rfl
  simp only [digitValue, isDigit_iff_toNat, isLower_iff_toNat, hzero, ha, hA]
  split_ifs at hcode ⊢ <;> omega

/-- A digit is one of the base if its code is that of the table at its own value. -/
theorem isDigitOf_of_toNat (hv : v < base) (hbase : base ≤ 16)
    (hcode : (if 65 ≤ c.toNat ∧ c.toNat ≤ 90 then c.toNat + 32 else c.toNat) =
      if v < 10 then 48 + v else 87 + v) : IsDigitOf base c := by
  refine ⟨v, hv, Char.toNat_inj.mp ?_⟩
  rw [toNat_toLower, toNat_digitChar (Nat.lt_of_lt_of_le hv hbase), hcode]

theorem IsDigitOf.toNat (hbase : base ≤ 16) (h : IsDigitOf base c) : ∃ v < base,
    (if 65 ≤ c.toNat ∧ c.toNat ≤ 90 then c.toNat + 32 else c.toNat) =
      if v < 10 then 48 + v else 87 + v := by
  obtain ⟨v, hv, hc⟩ := h
  refine ⟨v, hv, ?_⟩
  rw [← toNat_toLower, hc, toNat_digitChar (Nat.lt_of_lt_of_le hv hbase)]

/-- The scanner's test of hexadecimal digits is the table's, letters of either case included. -/
theorem isHexDigit_iff : isHexDigit c ↔ IsDigitOf 16 c := by
  rw [isHexDigit_iff_toNat]
  constructor
  · rintro (hdigit | hlower | hupper)
    · exact isDigitOf_of_toNat (v := c.toNat - 48) (by omega) (by omega) (by split_ifs <;> omega)
    · exact isDigitOf_of_toNat (v := c.toNat - 87) (by omega) (by omega) (by split_ifs <;> omega)
    · exact isDigitOf_of_toNat (v := c.toNat - 55) (by omega) (by omega) (by split_ifs <;> omega)
  · intro h
    obtain ⟨v, hv, hcode⟩ := h.toNat (Nat.le_refl 16)
    split_ifs at hcode <;> omega

/-- Of the bases up to ten the digits are those of base ten whose value is below the base. -/
theorem isDigitOf_iff_of_le_ten (hbase : base ≤ 10) :
    IsDigitOf base c ↔ 48 ≤ c.toNat ∧ c.toNat < 48 + base := by
  constructor
  · intro h
    obtain ⟨v, hv, hcode⟩ := h.toNat (by omega)
    split_ifs at hcode <;> omega
  · intro h
    exact isDigitOf_of_toNat (v := c.toNat - 48) (by omega) (by omega) (by split_ifs <;> omega)

/-- The scanner's test of decimal digits is the table's. -/
theorem isDigit_iff : c.isDigit ↔ IsDigitOf 10 c := by
  rw [isDigit_iff_toNat, isDigitOf_iff_of_le_ten (Nat.le_refl 10)]
  omega

/-- The scanner's test of octal digits is the table's. -/
theorem isOctalDigit_iff : isOctalDigit c ↔ IsDigitOf 8 c := by
  rw [isOctalDigit_iff_toNat, isDigitOf_iff_of_le_ten (by decide)]
  omega

/-! ## Adding digits up -/

theorem ofDigits_append (base : Nat) (ds es : List Char) : ofDigits base (ds ++ es) =
    es.foldl (fun n c ↦ base * n + digitValue c) (ofDigits base ds) := by
  rw [ofDigits, List.foldl_append]
  rfl

theorem ofDigits_concat (base : Nat) (ds : List Char) (c : Char) :
    ofDigits base (ds ++ [c]) = base * ofDigits base ds + digitValue c :=
  ofDigits_append base ds [c]

/-- Zeros behind the digits multiply by powers of the base. -/
theorem ofDigits_append_zeros (base : Nat) (ds : List Char) (zeros : Nat) :
    ofDigits base (ds ++ List.replicate zeros '0') = base ^ zeros * ofDigits base ds := by
  induction zeros with
  | zero => rw [List.replicate_zero, List.append_nil, Nat.pow_zero, Nat.one_mul]
  | succ zeros ih =>
    rw [List.replicate_succ', ← List.append_assoc, ofDigits_concat, ih, Nat.pow_succ',
      Nat.mul_assoc]
    rfl

/-- Zeros in front of the digits change nothing. -/
theorem ofDigits_zeros_append (base zeros : Nat) (ds : List Char) :
    ofDigits base (List.replicate zeros '0' ++ ds) = ofDigits base ds := by
  have hzeros := ofDigits_append_zeros base [] zeros
  rw [List.nil_append] at hzeros
  rw [ofDigits_append, hzeros]
  rfl

/-- A letter has the same value in either case. -/
theorem ofDigits_map_toLower (hdigits : ∀ c ∈ digits, IsDigitOf 16 c) :
    ofDigits base (digits.map Char.toLower) = ofDigits base digits := by
  have hvalue : ∀ c ∈ digits, digitValue c.toLower = digitValue c := by
    intro c hc
    obtain ⟨v, hv, hlower⟩ := hdigits c hc
    have hself : v.digitChar.toLower = v.digitChar := by interval_cases v <;> rfl
    rw [hlower, digitValue_eq hv hself, digitValue_eq hv hlower]
  rw [ofDigits, ofDigits, List.foldl_map]
  exact List.foldl_ext _ _ _ fun m c hc ↦ by rw [hvalue c hc]

/-- **The digits of a number add up to the number.** -/
theorem ofDigits_toDigits (hpos : 1 < base) (hbase : base ≤ 16) (n : Nat) :
    ofDigits base (Nat.toDigits base n) = n := by
  have hdigit (v : Nat) (hv : v < base) : digitValue v.digitChar = v := by
    have hv : v < 16 := Nat.lt_of_lt_of_le hv hbase
    exact digitValue_eq hv (by interval_cases v <;> rfl)
  induction n using Nat.strongRecOn with
  | ind n ih =>
    rcases Nat.lt_or_ge n base with hlt | hle
    · rw [Nat.toDigits_of_lt_base hlt, ofDigits, List.foldl_cons, List.foldl_nil, Nat.mul_zero,
        Nat.zero_add, hdigit n hlt]
    · rw [Nat.toDigits_of_base_le hpos hle, ofDigits_concat,
        ih (n / base) (Nat.div_lt_self (by omega) hpos), hdigit _ (Nat.mod_lt n (by omega)),
        Nat.div_add_mod]

/-! ## What digits spell -/

/-- The characters are the digits of the number, behind zeros perhaps and with letters of either
case. -/
def DigitsOf (base n : Nat) (digits : List Char) : Prop :=
  ∃ zeros, digits.map Char.toLower = List.replicate zeros '0' ++ Nat.toDigits base n

theorem isDigitOf_of_mem_toDigits (hpos : 1 < base) (hc : c ∈ Nat.toDigits base n) :
    ∃ v < base, c = v.digitChar := by
  induction n using Nat.strongRecOn with
  | ind n ih =>
    rcases Nat.lt_or_ge n base with hlt | hle
    · rw [Nat.toDigits_of_lt_base hlt, List.mem_singleton] at hc
      exact ⟨n, hlt, hc⟩
    · rw [Nat.toDigits_of_base_le hpos hle, List.mem_append, List.mem_singleton] at hc
      rcases hc with hc | hc
      · exact ih (n / base) (Nat.div_lt_self (by omega) hpos) hc
      · exact ⟨_, Nat.mod_lt n (by omega), hc⟩

theorem DigitsOf.ne_nil (h : DigitsOf base n digits) : digits ≠ [] := by
  rintro rfl
  obtain ⟨zeros, hzeros⟩ := h
  exact Nat.toDigits_ne_nil (List.append_eq_nil_iff.mp hzeros.symm).2

theorem DigitsOf.isDigitOf (hpos : 1 < base) (h : DigitsOf base n digits) :
    ∀ c ∈ digits, IsDigitOf base c := by
  intro c hc
  obtain ⟨zeros, hzeros⟩ := h
  have hmem : c.toLower ∈ List.replicate zeros '0' ++ Nat.toDigits base n :=
    hzeros ▸ List.mem_map_of_mem hc
  rcases List.mem_append.mp hmem with hzero | hdigit
  · exact ⟨0, Nat.zero_lt_of_lt hpos, (List.mem_replicate.mp hzero).2⟩
  · exact isDigitOf_of_mem_toDigits hpos hdigit

/-- The digits of a number add up to it. -/
theorem DigitsOf.ofDigits_eq (hpos : 1 < base) (hbase : base ≤ 16) (h : DigitsOf base n digits) :
    ofDigits base digits = n := by
  have hdigits : ∀ c ∈ digits, IsDigitOf 16 c := by
    intro c hc
    obtain ⟨v, hv, hlower⟩ := h.isDigitOf hpos c hc
    exact ⟨v, Nat.lt_of_lt_of_le hv hbase, hlower⟩
  obtain ⟨zeros, hzeros⟩ := h
  rw [← ofDigits_map_toLower hdigits, hzeros, ofDigits_zeros_append, ofDigits_toDigits hpos hbase]

/-- Digits are the digits of what they add up to. -/
theorem digitsOf_ofDigits (hpos : 1 < base) (hbase : base ≤ 16) (hne : digits ≠ [])
    (hdigits : ∀ c ∈ digits, IsDigitOf base c) : DigitsOf base (ofDigits base digits) digits := by
  induction digits using List.reverseRecOn with
  | nil => exact absurd rfl hne
  | append_singleton ds c ih =>
    obtain ⟨v, hv, hc⟩ := hdigits c (List.mem_append_right ds List.mem_cons_self)
    rw [ofDigits_concat, digitValue_eq (Nat.lt_of_lt_of_le hv hbase) hc]
    rcases List.eq_nil_or_concat ds with rfl | hcons
    · refine ⟨0, ?_⟩
      have hvalue : base * ofDigits base [] + v = v := Nat.zero_add v
      rw [hvalue, Nat.toDigits_of_lt_base hv, List.nil_append, List.map_singleton, hc]
      rfl
    · have hds : ds ≠ [] := by
        obtain ⟨front, d, rfl⟩ := hcons
        simp
      obtain ⟨zeros, hzeros⟩ := ih hds fun d hd ↦ hdigits d (List.mem_append_left _ hd)
      rw [DigitsOf, List.map_append, List.map_singleton, hc, hzeros]
      -- Nothing but zeros stands in front, or the new digit goes behind those of the number so far.
      rcases Nat.eq_zero_or_pos (ofDigits base ds) with hzero | hsome
      · refine ⟨zeros + 1, ?_⟩
        rw [hzero, Nat.mul_zero, Nat.zero_add, Nat.toDigits_zero, Nat.toDigits_of_lt_base hv,
          List.replicate_succ']
      · refine ⟨zeros, ?_⟩
        rw [← Nat.toDigits_append_toDigits hpos hsome hv, Nat.toDigits_of_lt_base hv,
          List.append_assoc]

/-- **Characters spell a number exactly when they are digits that add up to it.** -/
theorem digitsOf_iff (hpos : 1 < base) (hbase : base ≤ 16) : DigitsOf base n digits ↔
    digits ≠ [] ∧ (∀ c ∈ digits, IsDigitOf base c) ∧ ofDigits base digits = n := by
  constructor
  · exact fun h ↦ ⟨h.ne_nil, h.isDigitOf hpos, h.ofDigits_eq hpos hbase⟩
  · rintro ⟨hne, hdigits, rfl⟩
    exact digitsOf_ofDigits hpos hbase hne hdigits

/-! The three sorts of digits that numerals are made of. -/

theorem digitsOf_of_isHexDigit (hne : digits ≠ []) (h : ∀ c ∈ digits, isHexDigit c) :
    DigitsOf 16 (ofDigits 16 digits) digits :=
  digitsOf_ofDigits (by decide) (by decide) hne fun c hc ↦ isHexDigit_iff.mp (h c hc)

theorem digitsOf_of_isOctalDigit (hne : digits ≠ []) (h : ∀ c ∈ digits, isOctalDigit c) :
    DigitsOf 8 (ofDigits 8 digits) digits :=
  digitsOf_ofDigits (by decide) (by decide) hne fun c hc ↦ isOctalDigit_iff.mp (h c hc)

theorem digitsOf_of_isDigit (hne : digits ≠ []) (h : ∀ c ∈ digits, c.isDigit) :
    DigitsOf 10 (ofDigits 10 digits) digits :=
  digitsOf_ofDigits (by decide) (by decide) hne fun c hc ↦ isDigit_iff.mp (h c hc)

example : DigitsOf 16 (2 ^ (16 : Nat) - 2) "00fFFe".toList := ⟨2, by decide +kernel⟩

/-! ## Base ten -/

theorem ofDigits_ten_toDigits (n : Nat) : ofDigits 10 (Nat.toDigits 10 n) = n :=
  ofDigits_toDigits (by decide) (by decide) n

theorem isDigit_of_mem_toDigits (h : c ∈ Nat.toDigits 10 n) : c.isDigit :=
  Nat.isDigit_of_mem_toDigits (by decide) (by decide) h

theorem isDigit_zeros (n : Nat) : ∀ c ∈ List.replicate n '0', c.isDigit := by
  intro c hc
  rw [(List.mem_replicate.mp hc).2]
  rfl

/-- The first digit of a number is a zero only if it is all of the number. -/
theorem exists_toDigits_eq_cons (n : Nat) : ∃ c cs, Nat.toDigits 10 n = c :: cs ∧ c.isDigit ∧
    (∀ d ∈ cs, d.isDigit) ∧ (c = '0' → n = 0 ∧ cs = []) := by
  have key : ∃ c cs, Nat.toDigits 10 n = c :: cs ∧ (c = '0' → n = 0 ∧ cs = []) := by
    induction n using Nat.strongRecOn with
    | _ n ih =>
      by_cases hn : n < 10
      · refine ⟨n.digitChar, [], Nat.toDigits_of_lt_base hn, fun hc ↦ ⟨?_, rfl⟩⟩
        exact Nat.digitChar_eq_zero.mp hc
      · obtain ⟨c, cs, hcs, hzero⟩ := ih (n / 10) (by omega)
        refine ⟨c, cs ++ [(n % 10).digitChar], ?_, fun hc ↦ ?_⟩
        · rw [Nat.toDigits_of_base_le (by decide) (by omega), hcs, List.cons_append]
        · have := (hzero hc).1
          omega
  obtain ⟨c, cs, hcs, hzero⟩ := key
  have hdigits (d : Char) (hd : d ∈ c :: cs) : d.isDigit := isDigit_of_mem_toDigits (hcs ▸ hd)
  exact ⟨c, cs, hcs, hdigits c List.mem_cons_self,
    fun d hd ↦ hdigits d (List.mem_cons_of_mem c hd), hzero⟩

end ProtoSchema

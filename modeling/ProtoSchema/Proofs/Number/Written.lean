import ProtoSchema.Number.Shortest
import ProtoSchema.Proofs.Number.Digits
import ProtoSchema.Proofs.Number.Nearest
import ProtoSchema.Proofs.Token.Numeral

/-!
# Written numbers are read back

A natural number is written in base ten, and a floating-point number as the shortest decimal that
rounds to it, in positional notation or with an exponent.  Each of these texts is a decimal numeral,
of which the scanner takes no more and no less when something follows that ends a numeral, and its
value is the number that was written.

The statements are in terms of `Spells` and `Leads` (`Proofs/Token/Scans.lean`).  A text spells
symbols if it is divided into them in front of any text that is divided and begins as it may; it
leads them if that is so even where nothing can be read behind it.

## What is here

* `Numeral.Written` — the parts of a decimal numeral that is written.  It begins with a zero only if
  nothing that an octal numeral could go on with follows, so the scanner stays in base ten.
* `Leads.numeral` and `Spells.numeral` — such a numeral is scanned as one symbol.
* `Spells.natural` — natural numbers of 64 bits.
* `Exponent.ofInt` — the exponent that is written for a power of ten, and its value.
* `Decimal.spells_positional`, `Decimal.spells_scientific`, `Decimal.spells_text` — decimals.  The
  position of the point and the zeros around it cancel against the exponent.
* `Binary64.spells_shortest` — magnitudes.  Infinities and the NaN are words and signs, which are
  dealt with where literals are printed.
-/

set_option autoImplicit false

namespace ProtoSchema

-- Powers are those of the core library, whatever else is imported.
attribute [local instance(high)] instPowNat

/-! ## Decimal numerals in a text -/

/-- The symbol of a numeral. -/
def Symbol.numeral (text : List Char) (n : Number) : Symbol :=
  ⟨.number, String.ofList text, some (.number n)⟩

/-- The parts of a decimal numeral that is written: it begins with a zero only when that is all of
its whole part. -/
structure Numeral.Written (c : Char) (cs : List Char) (fraction? : Option (List Char))
    (exponent? : Option Exponent) : Prop where
  first : c.isDigit
  whole : ∀ d ∈ cs, d.isDigit
  zero : c = '0' → cs = []
  fraction : ∀ ds ∈ fraction?, ∀ d ∈ ds, d.isDigit
  exponent : ∀ e ∈ exponent?, e.Formed

/-- Digits with a point between them, and behind them an exponent or none. -/
theorem Numeral.Written.point {c : Char} {cs ds : List Char} {exponent? : Option Exponent}
    (hc : c.isDigit) (hcs : ∀ d ∈ cs, d.isDigit) (hzero : c = '0' → cs = [])
    (hds : ∀ d ∈ ds, d.isDigit) (he : ∀ e ∈ exponent?, e.Formed) :
    Written c cs (some ds) exponent? where
  first := hc
  whole := hcs
  zero := hzero
  fraction := by
    rintro _ ⟨⟩
    exact hds
  exponent := he

theorem Leads.numeral {c : Char} {whole : List Char} {fraction? : Option (List Char)}
    {exponent? : Option Exponent} {n : Number} (h : Numeral.Written c whole fraction? exponent?)
    (hn : (Numeral.decimal (c :: whole) fraction? exponent?).value? = some n) :
    Leads closes (String.ofList (Numeral.decimal (c :: whole) fraction? exponent?).text)
      [.numeral (Numeral.decimal (c :: whole) fraction? exponent?).text n] := by
  set tail := whole ++ Numeral.fractionText fraction? ++ Numeral.exponentText exponent? with htail
  have htext : (Numeral.decimal (c :: whole) fraction? exponent?).text = c :: tail := by
    simp [Numeral.text, htail]
  rw [htext]
  refine .piece (p := ⟨.number, tail, some (.number n)⟩) (fun behind hbehind ↦ ?_)
    (Kind.noConfusion ·)
  have hread : Numeral.read c (tail ++ behind) = .decimal (c :: whole) fraction? exponent? := by
    rw [htail, List.append_assoc, List.append_assoc]
    exact Numeral.read_decimal h.whole h.zero h.fraction h.exponent hbehind
  rw [pieceAt_of_isDigit h.first, numberPiece, hread, hn, htext]
  rfl

/-- A numeral that is written is one symbol, with the value of the numeral. -/
theorem Spells.numeral {c : Char} {whole : List Char} {fraction? : Option (List Char)}
    {exponent? : Option Exponent} {n : Number} (h : Numeral.Written c whole fraction? exponent?)
    (hn : (Numeral.decimal (c :: whole) fraction? exponent?).value? = some n) :
    Spells closes (String.ofList (Numeral.decimal (c :: whole) fraction? exponent?).text)
      [.numeral (Numeral.decimal (c :: whole) fraction? exponent?).text n] :=
  (Leads.numeral h hn).spells

/-! ## Natural numbers -/

theorem Leads.natural {n : Nat} (hn : n < Numeral.integerLimit) :
    Leads closes (toString n) [.numeral (Nat.toDigits 10 n) (.integer n)] := by
  obtain ⟨c, cs, hcs, hc, htail, hzero⟩ := exists_toDigits_eq_cons n
  have hvalue : (Numeral.decimal (c :: cs) none none).value? = some (.integer n) := by
    rw [Numeral.value?, ← hcs, ofDigits_ten_toDigits, Numeral.integer?, if_pos hn]
  have htext : (Numeral.decimal (c :: cs) none none).text = Nat.toDigits 10 n := by
    simp [Numeral.text, Numeral.fractionText, Numeral.exponentText, hcs]
  have hwritten : Numeral.Written c cs none none :=
    ⟨hc, htail, fun h ↦ (hzero h).2, by simp, by simp⟩
  have hleads := Leads.numeral hwritten hvalue
  rwa [htext, ← Nat.toString_eq_ofList_toDigits] at hleads

/-- A natural number of 64 bits is read back. -/
theorem Spells.natural {n : Nat} (hn : n < Numeral.integerLimit) :
    Spells closes (toString n) [.numeral (Nat.toDigits 10 n) (.integer n)] :=
  (Leads.natural hn).spells

/-- A whole number is a natural number with or without a sign. -/
theorem toString_int (k : Int) : toString k = (if k < 0 then "-" else "") ++ toString k.natAbs := by
  rw [Int.toString_eq_repr, Int.repr_eq_if]
  by_cases hk : k < 0
  · rw [if_neg (by omega), if_pos hk, show (-k).toNat = k.natAbs by omega]
    rfl
  · rw [if_pos (by omega), if_neg hk, show k.toNat = k.natAbs by omega, String.empty_append]
    rfl

/-! ## Decimals -/

/-- The exponent that is written for a power of ten. -/
def Exponent.ofInt (k : Int) : Exponent :=
  ⟨'e', if k < 0 then some '-' else none, Nat.toDigits 10 k.natAbs⟩

namespace Exponent

theorem formed_ofInt (k : Int) : (ofInt k).Formed where
  letter := .inl rfl
  sign := by
    simp only [ofInt]
    split
    · rintro _ ⟨⟩
      rfl
    · nofun
  digits := fun _ hc ↦ isDigit_of_mem_toDigits hc
  digits_ne_nil := Nat.toDigits_ne_nil

/-- The exponent that is written has the value that it was written for. -/
theorem value_ofInt (k : Int) : (ofInt k).value = k := by
  simp only [value, ofInt, ofDigits_ten_toDigits]
  by_cases hk : k < 0
  · rw [if_pos hk, if_pos rfl]
    omega
  · rw [if_neg hk, if_neg (by simp)]
    omega

theorem text_ofInt (k : Int) : (ofInt k).text = 'e' :: (toString k).toList := by
  have hdigits : (toString k.natAbs).toList = Nat.toDigits 10 k.natAbs := Nat.toList_repr
  rw [text, ofInt, toString_int, String.toList_append, hdigits]
  split <;> rfl

end Exponent

namespace Decimal

variable {d : Decimal}

/-- The digits of a decimal are the whole number and the fraction of a numeral, with zeros in front
or behind and the point somewhere between them. -/
theorem spells_numeral {c : Char} {cs fraction : List Char} {exponent? : Option Exponent}
    (h : Numeral.Written c cs (some fraction) exponent?) (zeros : Nat)
    (hdigits : ofDigits 10 (c :: cs ++ fraction) = 10 ^ zeros * d.coefficient)
    (hexponent : (exponent?.map Exponent.value).getD 0 - fraction.length + zeros = d.exponent) :
    Spells closes (String.ofList (Numeral.decimal (c :: cs) (some fraction) exponent?).text)
      [.numeral (Numeral.decimal (c :: cs) (some fraction) exponent?).text
        (.float (d.toBinary64 false))] := by
  refine Spells.numeral h ?_
  simp only [Numeral.value?, Option.getD_some, hdigits]
  rw [toBinary64_mul_pow, hexponent]

/-- The digits of a number other than zero do not begin with one. -/
theorem digits_eq_cons (hd : d.coefficient ≠ 0) : ∃ c cs, d.digits = c :: cs ∧ c.isDigit ∧
    c ≠ '0' ∧ ∀ e ∈ cs, e.isDigit := by
  obtain ⟨c, cs, hcs, hc, htail, hzero⟩ := exists_toDigits_eq_cons d.coefficient
  exact ⟨c, cs, hcs, hc, fun h ↦ hd (hzero h).1, htail⟩

theorem ofDigits_digits : ofDigits 10 d.digits = d.coefficient :=
  ofDigits_ten_toDigits d.coefficient

theorem scale_eq {c : Char} {cs : List Char} (hcs : d.digits = c :: cs) :
    d.scale = d.exponent + cs.length := by
  rw [scale, hcs, List.length_cons]
  omega

/-- Positional notation is read back. -/
theorem spells_positional (hd : d.coefficient ≠ 0) :
    Spells closes (String.ofList d.positional)
      [.numeral d.positional (.float (d.toBinary64 false))] := by
  obtain ⟨c, cs, hcs, hc, hzero, htail⟩ := digits_eq_cons hd
  have hcoefficient := ofDigits_digits (d := d)
  rw [hcs] at hcoefficient
  have hscale := scale_eq hcs
  simp only [positional, hcs]
  split
  · -- all digits stand behind the point
    rename_i hsmall
    set zeros := List.replicate (-d.scale - 1).toNat '0' with hzeros
    have hfraction : ∀ e ∈ zeros ++ c :: cs, e.isDigit :=
      List.forall_mem_append.mpr ⟨isDigit_zeros _, List.forall_mem_cons.mpr ⟨hc, htail⟩⟩
    have hwritten : Numeral.Written '0' [] (some (zeros ++ c :: cs)) none :=
      .point rfl nofun (fun _ ↦ rfl) hfraction nofun
    have hspells := spells_numeral (d := d) hwritten 0 ?_ ?_
    · simpa [Numeral.text, Numeral.fractionText, Numeral.exponentText] using hspells
    · rw [pow_zero, Nat.one_mul, ← hcoefficient]
      exact (ofDigits_zeros_append 10 1 _).trans (ofDigits_zeros_append 10 _ _)
    · simp only [hzeros, Option.map_none, Option.getD_none, List.length_append,
        List.length_replicate, List.length_cons]
      omega
  split
  · -- all digits stand in front of the point
    rename_i hexponent
    set zeros := List.replicate d.exponent.toNat '0' with hzeros
    have hwhole : ∀ e ∈ cs ++ zeros, e.isDigit :=
      List.forall_mem_append.mpr ⟨htail, isDigit_zeros _⟩
    have hwritten : Numeral.Written c (cs ++ zeros) (some ['0']) none :=
      .point hc hwhole (fun h ↦ absurd h hzero) (isDigit_zeros 1) nofun
    have hspells := spells_numeral (d := d) hwritten (d.exponent.toNat + 1) ?_ ?_
    · simpa [Numeral.text, Numeral.fractionText, Numeral.exponentText] using hspells
    · rw [← hcoefficient, ← ofDigits_append_zeros, List.replicate_succ', hzeros]
      simp
    · simp only [Option.map_none, Option.getD_none, List.length_singleton]
      omega
  · -- the point stands between two digits
    rename_i hlarge hexponent
    obtain ⟨k, hk⟩ : ∃ k : Nat, (d.scale + 1).toNat = k + 1 := ⟨d.scale.toNat, by omega⟩
    have hwritten : Numeral.Written c (cs.take k) (some (cs.drop k)) none :=
      .point hc (fun e he ↦ htail e (List.mem_of_mem_take he)) (fun h ↦ absurd h hzero)
        (fun e he ↦ htail e (List.mem_of_mem_drop he)) nofun
    have hspells := spells_numeral (d := d) hwritten 0 ?_ ?_
    · simpa [Numeral.text, Numeral.fractionText, Numeral.exponentText, hk] using hspells
    · rw [List.cons_append, List.take_append_drop, hcoefficient, pow_zero, Nat.one_mul]
    · simp only [Option.map_none, Option.getD_none, List.length_drop]
      omega

/-- A decimal with an exponent is read back. -/
theorem spells_scientific (hd : d.coefficient ≠ 0) :
    Spells closes (String.ofList d.scientific)
      [.numeral d.scientific (.float (d.toBinary64 false))] := by
  obtain ⟨c, cs, hcs, hc, hzero, htail⟩ := digits_eq_cons hd
  have hcoefficient := ofDigits_digits (d := d)
  rw [hcs] at hcoefficient
  have hscale := scale_eq hcs
  have hformed : ∀ e ∈ some (Exponent.ofInt d.scale), e.Formed := by
    rintro _ ⟨⟩
    exact Exponent.formed_ofInt d.scale
  cases cs with
  | nil =>
    have hwritten : Numeral.Written c [] none (some (.ofInt d.scale)) :=
      ⟨hc, nofun, fun _ ↦ rfl, nofun, hformed⟩
    have hvalue : (Numeral.decimal [c] none (some (.ofInt d.scale))).value? =
        some (.float (d.toBinary64 false)) := by
      simp only [Numeral.value?, Option.getD_none, List.append_nil, Option.map_some,
        Option.getD_some, Exponent.value_ofInt, List.length_nil, hcoefficient, hscale]
      simp
    have hspells := Spells.numeral hwritten hvalue
    simpa [scientific, hcs, Numeral.text, Numeral.fractionText, Numeral.exponentText,
      Exponent.text_ofInt] using hspells
  | cons e es =>
    have hwritten : Numeral.Written c [] (some (e :: es)) (some (.ofInt d.scale)) :=
      .point hc nofun (fun _ ↦ rfl) htail hformed
    have hspells := spells_numeral (d := d) hwritten 0 ?_ ?_
    · simpa [scientific, hcs, Numeral.text, Numeral.fractionText, Numeral.exponentText,
        Exponent.text_ofInt] using hspells
    · rw [pow_zero, Nat.one_mul, ← hcoefficient]
      rfl
    · simp only [Option.map_some, Option.getD_some, Exponent.value_ofInt]
      omega

/-- **A decimal is read back** as the number that it rounds to. -/
theorem spells_text (d : Decimal) :
    Spells closes (String.ofList d.text) [.numeral d.text (.float (d.toBinary64 false))] := by
  rw [text]
  split
  · rename_i hd
    have hwritten : Numeral.Written '0' [] (some ['0']) none :=
      .point rfl nofun (fun _ ↦ rfl) (isDigit_zeros 1) nofun
    have hvalue : (Numeral.decimal ['0'] (some ['0']) none).value? =
        some (.float (d.toBinary64 false)) := by
      have hdigits : ofDigits 10 (['0'] ++ ['0']) = 0 := rfl
      have hzero : d.toBinary64 false = .zero false := if_pos hd
      simp only [Numeral.value?, Option.getD_some, hdigits, hzero]
      rfl
    have hspells := Spells.numeral hwritten hvalue
    exact hspells
  · rename_i hd
    split
    · exact spells_positional hd
    · exact spells_scientific hd

end Decimal

namespace Binary64

/-- **A magnitude of the binary format is read back.** -/
theorem spells_shortest (rank : Nat) :
    Spells closes (String.ofList (shortest rank).text)
      [.numeral (shortest rank).text (.float (ofRank false rank))] := by
  rw [← toBinary64_shortest]
  exact (shortest rank).spells_text

/-! The text at the limits of its forms.  The last number is half way between the two decimals with
sixteen digits around it. -/

example : (ofBits 0x430c6bf526340000).text = "1000000000000000.0".toList := by decide +kernel

example : (ofBits 0x4341c37937e08000).text = "1e16".toList := by decide +kernel

example : (ofBits 0x3f1a36e2eb1c432d).text = "0.0001".toList := by decide +kernel

example : (ofBits 0x3f1a36e2eb1c432c).text = "9.999999999999999e-5".toList := by decide +kernel

example : (ofBits 0x8000000000000001).text = "-5e-324".toList := by decide +kernel

example : (ofBits 0x430aa4247ac24a62).text = "937353247476044.3".toList := by decide +kernel

end Binary64

end ProtoSchema

import ProtoSchema.Proofs.Token.Lexical

/-!
# Longest match

Words, numerals and operators are read from the left, one part at a time, and nowhere is the longest
text of a language looked for.  That it is found all the same is shown here: `longest_word`,
`Numeral.longest_read` and `longest_operator`.

What makes it so is that no part can go on with a character that the next part can begin with.  A
run of characters that is cut short has to be the whole text (`length_append_le`), because nothing
of the language could come behind it.  The forms of a numeral are tried one after the other, but
only one of them can win: a hexadecimal numeral is longer than the zero which is all that the
decimal form takes there, and an octal one is taken only where the decimal form takes the same
characters (`Numeral.text_of_octal?_eq`).

## What is here

* `Lexical.Longest.unique` — there is one longest text at most, which is why "the longest" is enough
  to say what a token is.
* `length_le_takeWhile`, `length_append_le` — a run of characters, and a run with more behind it.
* `longest_word` — words.
* `Exponent.length_text_le`, `Numeral.length_behind_le`, `Numeral.longest_decimalFrom` — decimal
  numerals, from their end to their beginning.
* `Numeral.length_hexadecimal_le`, `Numeral.length_decimalFrom_of_hexadecimal?`,
  `Numeral.text_of_octal?_eq`, `Numeral.longest_read` — the choice of the form.
* `Kind.eq_of_spelling?`, `tail_of_operatorPiece`, `longest_operator` — operators of one and of two
  characters.
-/

set_option autoImplicit false

namespace ProtoSchema

open Lexical

/-- There is one longest text at most. -/
theorem Lexical.Longest.unique {l : Language Char} {u v cs : List Char} (hu : Longest l u cs)
    (hv : Longest l v cs) : u = v := by
  have hle : u.length ≤ v.length := hv.longest u hu.mem hu.stands
  have hge : v.length ≤ u.length := hu.longest v hv.mem hv.stands
  have hstands := List.prefix_of_prefix_length_le hu.stands hv.stands hle
  exact hstands.eq_of_length (Nat.le_antisymm hle hge)

/-! ## Runs of characters -/

variable {p : Char → Bool} {w u cs : List Char}

/-- A run of characters at the head of a text is no longer than the whole run that stands there. -/
theorem length_le_takeWhile (hw : ∀ c ∈ w, p c) (h : w <+: cs) :
    w.length ≤ (cs.takeWhile p).length := by
  obtain ⟨rest, rfl⟩ := h
  rw [List.takeWhile_append_of_pos hw, List.length_append]
  exact Nat.le_add_right _ _

/-- A run of characters and something behind it that cannot go on with the run.  If there is
something, the run is all that can be taken. -/
theorem length_append_le {k : Nat} (hw : ∀ c ∈ w, p c) (hu : ∀ c ∈ u.head?, ¬p c)
    (h : w ++ u <+: cs) (hk : u <+: cs.dropWhile p → u.length ≤ k) :
    (w ++ u).length ≤ (cs.takeWhile p).length + k := by
  rw [List.length_append]
  cases u with
  | nil =>
    rw [List.append_nil] at h
    exact Nat.le_add_right_of_le (length_le_takeWhile hw h)
  | cons d u =>
    obtain ⟨rest, rfl⟩ := h
    have hhead : ∀ c ∈ (d :: u ++ rest).head?, ¬p c := hu
    rw [List.append_assoc, takeWhile_append_of_head hw hhead]
    rw [List.append_assoc, dropWhile_append_of_head hw hhead] at hk
    exact Nat.add_le_add_left (hk ⟨rest, rfl⟩) _

/-! ## Words -/

/-- **The word that is read is the longest one that stands there.** -/
theorem longest_word {c : Char} (hc : isWordStart c) :
    Longest words (c :: cs.takeWhile isWordPart) (c :: cs) where
  mem := mem_words.mpr ⟨c, _, rfl, hc, fun _ hd ↦ List.mem_takeWhile_imp hd⟩
  stands := List.cons_prefix_cons.mpr ⟨rfl, List.takeWhile_prefix isWordPart⟩
  longest := by
    intro other hother hstands
    obtain ⟨d, tail, rfl, -, htail⟩ := mem_words.mp hother
    have htake := length_le_takeWhile htail (List.cons_prefix_cons.mp hstands).2
    exact Nat.succ_le_succ htake

/-! ## Numerals -/

namespace Exponent

variable {e : Exponent} {ds : List Char}

/-- Digits behind an exponent belong to it, too. -/
theorem Formed.append (he : e.Formed) (hds : ∀ d ∈ ds, d.isDigit) :
    Formed { e with digits := e.digits ++ ds } where
  letter := he.letter
  sign := he.sign
  digits := by
    intro d hd
    rcases List.mem_append.mp hd with hd | hd
    · exact he.digits d hd
    · exact hds d hd
  digits_ne_nil := List.append_ne_nil_of_left_ne_nil he.digits_ne_nil ds

theorem text_append (e : Exponent) (ds : List Char) :
    text { e with digits := e.digits ++ ds } = e.text ++ ds := by
  rw [text, text, List.append_assoc]

/-- An exponent at the head of a text is no longer than the one that is read. -/
theorem length_text_le (he : e.Formed) (h : e.text <+: cs) :
    ∃ longer, read? cs = some longer ∧ e.text.length ≤ longer.text.length := by
  obtain ⟨rest, rfl⟩ := h
  have hdigits : ∀ d ∈ rest.takeWhile Char.isDigit, d.isDigit :=
    fun d hd ↦ List.mem_takeWhile_imp hd
  have hend : ∀ d ∈ (rest.dropWhile Char.isDigit).head?, ¬d.isDigit := not_of_head?_dropWhile
  have hread := read?_of_formed (he.append hdigits) hend
  rw [text_append, List.append_assoc, List.takeWhile_append_dropWhile] at hread
  refine ⟨_, hread, ?_⟩
  rw [text_append, List.length_append]
  exact Nat.le_add_right _ _

end Exponent

namespace Numeral

variable {c : Char} {x : Numeral} {whole : List Char} {fraction? : Option (List Char)}
  {exponent? : Option Exponent}

theorem length_exponentText_le (he : ∀ e ∈ exponent?, e.Formed)
    (h : exponentText exponent? <+: cs) :
    (exponentText exponent?).length ≤ (exponentText (Exponent.read? cs)).length := by
  cases exponent? with
  | none => exact Nat.zero_le _
  | some e =>
    obtain ⟨longer, hread, hle⟩ := Exponent.length_text_le (he e rfl) h
    rw [hread]
    exact hle

theorem fraction?_of_head (h : ∀ d ∈ cs.head?, d ≠ '.') : Numeral.fraction? cs = none := by
  unfold Numeral.fraction?
  split
  · exact absurd rfl (h '.' rfl)
  · rfl

/-- What is behind the whole part of a decimal numeral is as long as it can be. -/
theorem length_behind_le (hf : ∀ ds ∈ fraction?, ∀ d ∈ ds, d.isDigit)
    (he : ∀ e ∈ exponent?, e.Formed) (h : fractionText fraction? ++ exponentText exponent? <+: cs) :
    (fractionText fraction? ++ exponentText exponent?).length ≤
      (fractionText (Numeral.fraction? cs)).length +
        (exponentText
          (Exponent.read? (cs.drop (fractionText (Numeral.fraction? cs)).length))).length := by
  cases fraction? with
  | none =>
    cases exponent? with
    | none => exact Nat.zero_le _
    | some e =>
      have hnone : Numeral.fraction? cs = none := by
        refine fraction?_of_head fun d hd ↦ ?_
        obtain ⟨rest, rfl⟩ := h
        rcases head?_exponentText he d hd with rfl | rfl <;> decide
      rw [hnone, fractionText, List.length_nil, Nat.zero_add, List.drop_zero]
      exact length_exponentText_le he h
  | some ds =>
    cases cs with
    | nil => exact absurd (List.prefix_nil.mp h) (List.cons_ne_nil _ _)
    | cons d cs =>
      obtain ⟨rfl, hstands⟩ := List.cons_prefix_cons.mp h
      have hhead : ∀ d ∈ (exponentText exponent?).head?, ¬d.isDigit := by
        intro d hd
        rcases head?_exponentText he d hd with rfl | rfl <;> decide
      have hle := length_append_le (hf ds rfl) hhead hstands (length_exponentText_le he)
      have hdrop : (cs.takeWhile Char.isDigit ++ cs.dropWhile Char.isDigit).drop
          (cs.takeWhile Char.isDigit).length = cs.dropWhile Char.isDigit := List.drop_left
      rw [List.takeWhile_append_dropWhile] at hdrop
      simp only [Numeral.fraction?, fractionText, List.length_cons, List.cons_append,
        List.drop_succ_cons, hdrop]
      omega

/-- The decimal numeral that is read is the longest one. -/
theorem longest_decimalFrom (hc : c.isDigit) :
    Longest decimals (decimalFrom c cs).text (c :: cs) where
  mem := by
    obtain ⟨whole, fraction?, exponent?, hparts, hwhole, hf, he⟩ := decimalFrom_parts c cs
    rw [hparts]
    exact mem_decimals.mpr ⟨_, _, _, rfl, List.cons_ne_nil _ _,
      List.forall_mem_cons.mpr ⟨hc, hwhole⟩, hf, he⟩
  stands := by
    obtain ⟨rest, hrest⟩ := text_decimalFrom c cs
    exact ⟨rest, hrest.symm⟩
  longest := by
    intro other hother hstands
    obtain ⟨whole, fraction?, exponent?, rfl, -, hwhole, hf, he⟩ := mem_decimals.mp hother
    have hbehind : ∀ d ∈ (fractionText fraction? ++ (exponentText exponent? ++ [])).head?,
        ¬d.isDigit ∧ d ≠ 'x' ∧ d ≠ 'X' := head?_behind_whole he nofun
    rw [List.append_nil] at hbehind
    have hhead : ∀ d ∈ (fractionText fraction? ++ exponentText exponent?).head?, ¬d.isDigit :=
      fun d hd ↦ (hbehind d hd).1
    rw [text, List.append_assoc] at hstands ⊢
    have hle := length_append_le hwhole hhead hstands (length_behind_le hf he)
    rw [List.takeWhile_cons_of_pos hc, List.dropWhile_cons_of_pos hc] at hle
    simp only [decimalFrom, text, List.length_append, List.length_cons] at hle ⊢
    omega

/-- What is read in base eight would be the same text in base ten. -/
theorem text_of_octal?_eq (h : octal? c cs = some x) : x.text = (decimalFrom c cs).text := by
  have hwhole : ∀ d ∈ cs.takeWhile Char.isDigit, d.isDigit := fun d hd ↦ List.mem_takeWhile_imp hd
  have hoctal := octal?_whole c (cs.dropWhile Char.isDigit) hwhole not_of_head?_dropWhile
  rw [List.takeWhile_append_dropWhile, h] at hoctal
  split at hoctal
  · rename_i hcond
    obtain rfl := Option.some.inj hoctal
    obtain ⟨rfl, -, -, hbehind⟩ := hcond
    have hhead : ∀ d ∈ (cs.dropWhile Char.isDigit).head?, d ≠ '.' ∧ d ≠ 'e' ∧ d ≠ 'E' := by
      intro d hd
      rw [Option.mem_def.mp hd] at hbehind
      refine ⟨?_, ?_, ?_⟩ <;> rintro rfl <;> exact hbehind rfl
    have hexponent : Exponent.read? (cs.dropWhile Char.isDigit) = none := by
      cases hrest : cs.dropWhile Char.isDigit with
      | nil => rfl
      | cons d rest =>
        obtain ⟨-, he, hE⟩ := hhead d (by rw [hrest]; rfl)
        simp [Exponent.read?, he, hE]
    simp only [decimalFrom, fraction?_of_head fun d hd ↦ (hhead d hd).1, fractionText,
      List.length_nil, List.drop_zero, hexponent, exponentText, text, List.append_nil]
  · cases hoctal

/-- The hexadecimal numerals at a place are one text and what it begins with. -/
theorem length_hexadecimal_le (hw : w ∈ hexadecimals) (h : w <+: c :: cs) :
    ∃ x, hexadecimal? c cs = some x ∧ w.length ≤ x.text.length := by
  obtain ⟨letter, digits, rfl, hletter, hne, hdigits⟩ := mem_hexadecimals.mp hw
  obtain ⟨rfl, hbehind⟩ := List.cons_prefix_cons.mp h
  cases cs with
  | nil => exact absurd (List.prefix_nil.mp hbehind) (List.cons_ne_nil _ _)
  | cons d cs =>
    obtain ⟨rfl, hstands⟩ := List.cons_prefix_cons.mp hbehind
    have hle := length_le_takeWhile hdigits hstands
    have htake : cs.takeWhile isHexDigit ≠ [] := by
      rw [← List.length_pos_iff] at hne ⊢
      omega
    refine ⟨hexadecimal letter (cs.takeWhile isHexDigit), ?_, ?_⟩
    · rw [hexadecimal?]
      exact if_pos ⟨rfl, hletter, htake⟩
    · simpa [text] using hle

/-- A decimal numeral ends in front of the letter of a hexadecimal one. -/
theorem length_decimalFrom_of_hexadecimal? (h : hexadecimal? c cs = some x) :
    (decimalFrom c cs).text.length ≤ x.text.length := by
  obtain ⟨rest, hrest⟩ := text_of_hexadecimal? h
  obtain ⟨letter, digits, rfl, rfl, hletter, -⟩ := hexadecimal?_eq_some h
  obtain rfl : cs = letter :: (digits ++ rest) := (List.cons.inj hrest).2
  have hdecimal : (decimalFrom '0' (letter :: (digits ++ rest))).text = ['0'] := by
    rcases hletter with rfl | rfl <;> rfl
  rw [hdecimal]
  exact Nat.succ_le_succ (Nat.zero_le _)

/-- **The numeral that is read is the longest one that stands there.** -/
theorem longest_read (hc : c.isDigit) : Longest numerals (read c cs).text (c :: cs) := by
  have hdecimal : Longest decimals (decimalFrom c cs).text (c :: cs) := longest_decimalFrom hc
  have hstands : (read c cs).text <+: c :: cs := by
    obtain ⟨tail, rest, htext, rfl⟩ := text_read c cs
    exact ⟨rest, by rw [htext]; rfl⟩
  cases hhex : hexadecimal? c cs with
  | some x =>
    rw [read_of_hexadecimal? hhex] at hstands ⊢
    refine ⟨.inl ?_, hstands, ?_⟩
    · obtain ⟨letter, digits, rfl, -, hletter, hne, hdigits⟩ := hexadecimal?_eq_some hhex
      exact mem_hexadecimals.mpr ⟨letter, digits, rfl, hletter, hne, hdigits⟩
    · rintro other (hother | hother) hbegins
      · obtain ⟨y, hy, hle⟩ := length_hexadecimal_le hother hbegins
        rw [hhex] at hy
        obtain rfl := Option.some.inj hy
        exact hle
      · exact (hdecimal.longest other hother hbegins).trans
          (length_decimalFrom_of_hexadecimal? hhex)
  | none =>
    have htext : (read c cs).text = (decimalFrom c cs).text := by
      cases hoctal : octal? c cs with
      | some x => rw [read_of_octal? hhex hoctal, text_of_octal?_eq hoctal]
      | none => rw [read_of_none hhex hoctal]
    rw [htext]
    refine ⟨.inr hdecimal.mem, hdecimal.stands, ?_⟩
    rintro other (hother | hother) hbegins
    · obtain ⟨y, hy, -⟩ := length_hexadecimal_le hother hbegins
      rw [hhex] at hy
      cases hy
    · exact hdecimal.longest other hother hbegins

end Numeral

/-! ## Operators -/

/-- Two operators are spelled differently. -/
theorem Kind.eq_of_spelling? {kind kind' : Kind} {text : String} (h : kind.spelling? = some text)
    (h' : kind'.spelling? = some text) : kind = kind' := by
  rcases operator?_of_spelling? h with ⟨c, htext, hc⟩ | ⟨c, shorter, htext, hc, hlonger⟩ <;>
    rcases operator?_of_spelling? h' with ⟨d, htext', hd⟩ | ⟨d, shorter', htext', hd, hlonger'⟩ <;>
    rw [htext] at htext'
  · obtain rfl := (List.cons.inj htext').1
    exact Option.some.inj (hc.symm.trans hd)
  · cases htext'
  · cases htext'
  · obtain rfl := (List.cons.inj htext').1
    obtain rfl := Option.some.inj (hc.symm.trans hd)
    exact Option.some.inj (hlonger.symm.trans hlonger')

/-- The operator that is read has the spelling of its kind. -/
theorem spelling?_of_operatorPiece {c : Char} {piece : Piece} (h : operatorPiece c cs = .ok piece) :
    piece.kind.spelling? = some (String.ofList (c :: piece.tail)) ∧ piece.value? = none := by
  cases operatorPiece_eq_ok_iff.mp h with
  | longer hkind hlonger => exact ⟨spelling?_of_withEqual? hkind hlonger, rfl⟩
  | single hkind _ => exact ⟨spelling?_of_operator? hkind, rfl⟩

/-- An equals sign is taken wherever it makes another operator. -/
theorem tail_of_operatorPiece {c : Char} {piece : Piece} {kind longer : Kind}
    (h : operatorPiece c ('=' :: cs) = .ok piece) (hkind : operator? c = some kind)
    (hlonger : withEqual? kind = some longer) : piece.tail = ['='] := by
  simp only [operatorPiece, hkind, hlonger] at h
  cases h
  rfl

/-- **The operator that is read is the longest one that stands there.** -/
theorem longest_operator {c : Char} {piece : Piece} (h : operatorPiece c cs = .ok piece) :
    Longest operators (c :: piece.tail) (c :: cs) where
  mem := by
    refine ⟨piece.kind, ?_⟩
    rw [(spelling?_of_operatorPiece h).1, Option.map_some, String.toList_ofList]
  stands := by
    obtain ⟨rest, rfl⟩ := (heads_of_operatorPiece h).stands
    exact ⟨rest, rfl⟩
  longest := by
    rintro other ⟨kind, hkind⟩ hstands
    obtain ⟨text, hspelling, rfl⟩ := Option.map_eq_some_iff.mp hkind
    rcases operator?_of_spelling? hspelling with ⟨d, htext, -⟩ | ⟨d, shorter, htext, hd, hlonger⟩
    · rw [htext]
      exact Nat.succ_le_succ (Nat.zero_le _)
    · rw [htext] at hstands ⊢
      obtain ⟨rfl, ⟨rest, rfl⟩⟩ := List.cons_prefix_cons.mp hstands
      rw [tail_of_operatorPiece h hd hlonger]

end ProtoSchema

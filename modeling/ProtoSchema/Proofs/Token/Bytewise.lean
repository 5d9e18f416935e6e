import ProtoSchema.Proofs.Text.Bytes
import ProtoSchema.Proofs.Token.Genuine

/-!
# Reading byte by byte

The scanner is about characters.  It can also be carried out on the bytes of a text in UTF-8, with a
position among them that is moved on by one or two at a time and nothing decoded on the way.  The
three loops that do so are written out here, and each of them stops where the function on characters
does.

## What is here

* `skipWhile` moves on while the byte at the position passes a test.  This is how words, the digits
  of numerals and line comments are read, and it comes to `List.takeWhile` (`skipWhile_bytesOf`) for
  a test of bytes that goes with a test of characters (`Bytewise`).
* `closingQuote?` looks for the quote that closes a string, and comes to `stringText?`
  (`closingQuote?_bytesOf`).
* `closingMarks?` looks for the marks that close a block comment, and comes to `blockText?`
  (`closingMarks?_bytesOf`).

All of this is so because no byte of another character looks like an ASCII character.  The one place
that needs more is the backslash: it takes the next *byte* along, not the next character.  Behind it
the position may be inside of a character, and the loop goes over what is left of it, in which there
is no quote, no backslash and no newline to be found.
-/

set_option autoImplicit false

namespace ProtoSchema

variable {c quote : Char} {cs front : List Char} {b q : UInt8} {before more behind : List UInt8}

/-! ## Loops -/

/-- The first position, from the given one on, at which there is no byte that passes the test. -/
def skipWhile (test : UInt8 → Bool) (input : List UInt8) (pos : Nat) : Nat :=
  if h : pos < input.length then
    if test input[pos] then skipWhile test input (pos + 1) else pos
  else pos
termination_by input.length - pos

/-- The byte of a backslash. -/
def backslashByte : UInt8 := 92

/-- The position of the quote that closes a string which goes on at the given position.  A byte
behind a backslash is passed over with it if it does not end the line. -/
def closingQuote? (quote : UInt8) (input : List UInt8) (pos : Nat) : Option Nat :=
  if h : pos < input.length then
    if input[pos] = newlineByte then none
    else if input[pos] = quote then some pos
    else if input[pos] = backslashByte ∧ input[pos + 1]?.any (· ≠ newlineByte) then
      closingQuote? quote input (pos + 2)
    else closingQuote? quote input (pos + 1)
  else none
termination_by input.length - pos

/-- The byte of a star. -/
def starByte : UInt8 := 42

/-- The byte of a slash. -/
def slashByte : UInt8 := 47

/-- The position of the marks that close a block comment which goes on at the given position. -/
def closingMarks? (input : List UInt8) (pos : Nat) : Option Nat :=
  if h : pos < input.length then
    if input[pos] = starByte ∧ input[pos + 1]? = some slashByte then some pos
    else closingMarks? input (pos + 1)
  else none
termination_by input.length - pos

/-! ### What one turn does

The position is said by what lies in front of it. -/

section Turns

variable (test : UInt8 → Bool)

theorem skipWhile_end : skipWhile test before before.length = before.length := by
  rw [skipWhile, dif_neg (Nat.lt_irrefl _)]

theorem skipWhile_cons : skipWhile test (before ++ b :: behind) before.length =
    if test b then skipWhile test (before ++ b :: behind) (before.length + 1)
    else before.length := by
  rw [skipWhile, dif_pos (by simp)]
  simp

theorem closingQuote?_end : closingQuote? q before before.length = none := by
  rw [closingQuote?, dif_neg (Nat.lt_irrefl _)]

theorem closingQuote?_cons : closingQuote? q (before ++ b :: behind) before.length =
    if b = newlineByte then none
    else if b = q then some before.length
    else if b = backslashByte ∧ behind.head?.any (· ≠ newlineByte) then
      closingQuote? q (before ++ b :: behind) (before.length + 2)
    else closingQuote? q (before ++ b :: behind) (before.length + 1) := by
  have hnext : (before ++ b :: behind)[before.length + 1]? = behind.head? := by
    rw [List.getElem?_append_right (by omega), Nat.add_sub_cancel_left, List.getElem?_cons_succ,
      List.head?_eq_getElem?]
  rw [closingQuote?, dif_pos (by simp), hnext]
  simp

theorem closingMarks?_end : closingMarks? before before.length = none := by
  rw [closingMarks?, dif_neg (Nat.lt_irrefl _)]

theorem closingMarks?_cons : closingMarks? (before ++ b :: behind) before.length =
    if b = starByte ∧ behind.head? = some slashByte then some before.length
    else closingMarks? (before ++ b :: behind) (before.length + 1) := by
  have hnext : (before ++ b :: behind)[before.length + 1]? = behind.head? := by
    rw [List.getElem?_append_right (by omega), Nat.add_sub_cancel_left, List.getElem?_cons_succ,
      List.head?_eq_getElem?]
  rw [closingMarks?, dif_pos (by simp), hnext]
  simp

end Turns

/-! ### Bytes that are passed over -/

section Over

variable (before behind)

/-- Bytes that pass the test are passed over. -/
theorem skipWhile_over {test : UInt8 → Bool} (h : ∀ b ∈ more, test b) :
    skipWhile test (before ++ (more ++ behind)) before.length =
      skipWhile test (before ++ (more ++ behind)) (before ++ more).length := by
  induction more generalizing before with
  | nil => rw [List.append_nil]
  | cons b more ih =>
    obtain ⟨hb, hmore⟩ := List.forall_mem_cons.mp h
    rw [List.cons_append, skipWhile_cons, if_pos hb]
    have hrest := ih (before ++ [b]) hmore
    simpa using hrest

/-- Bytes that mean nothing in a string are passed over. -/
theorem closingQuote?_over
    (h : ∀ b ∈ more, b ≠ newlineByte ∧ b ≠ q ∧ b ≠ backslashByte) :
    closingQuote? q (before ++ (more ++ behind)) before.length =
      closingQuote? q (before ++ (more ++ behind)) (before ++ more).length := by
  induction more generalizing before with
  | nil => rw [List.append_nil]
  | cons b more ih =>
    obtain ⟨⟨hnewline, hquote, hbackslash⟩, hmore⟩ := List.forall_mem_cons.mp h
    rw [List.cons_append, closingQuote?_cons, if_neg hnewline, if_neg hquote,
      if_neg fun h ↦ hbackslash h.1]
    have hrest := ih (before ++ [b]) hmore
    simpa using hrest

/-- Bytes that are no star are passed over. -/
theorem closingMarks?_over (h : ∀ b ∈ more, b ≠ starByte) :
    closingMarks? (before ++ (more ++ behind)) before.length =
      closingMarks? (before ++ (more ++ behind)) (before ++ more).length := by
  induction more generalizing before with
  | nil => rw [List.append_nil]
  | cons b more ih =>
    obtain ⟨hb, hmore⟩ := List.forall_mem_cons.mp h
    rw [List.cons_append, closingMarks?_cons, if_neg fun h ↦ hb h.1]
    have hrest := ih (before ++ [b]) hmore
    simpa using hrest

end Over

/-! ## Runs of characters -/

/-- The test of bytes goes with the test of characters: a character passes the one if all of its
bytes pass the other, and does not if none of them does. -/
def Bytewise (test : UInt8 → Bool) (p : Char → Bool) : Prop :=
  ∀ c, ∀ b ∈ String.utf8EncodeChar c, test b = p c

/-- A class of ASCII characters can be told from the bytes. -/
theorem Bytewise.of_ascii {test : UInt8 → Bool} {p : Char → Bool}
    (hascii : ∀ n < 128, test (UInt8.ofNat n) = p (Char.ofNat n))
    (hbyte : ∀ b : UInt8, 128 ≤ b.toNat → ¬test b) (hchar : ∀ c : Char, 128 ≤ c.toNat → ¬p c) :
    Bytewise test p := by
  intro c b hb
  rcases Nat.lt_or_ge c.toNat 128 with hc | hc
  · rw [utf8EncodeChar_of_lt hc, List.mem_singleton] at hb
    rw [hb, hascii _ hc, Char.ofNat_toNat]
  · have hb := hbyte b (le_of_mem_utf8EncodeChar hc hb)
    rw [Bool.eq_false_iff.mpr hb, Bool.eq_false_iff.mpr (hchar c hc)]

/-- All characters but one of ASCII can be told from the bytes. -/
theorem Bytewise.ne {a : Char} (ha : a.toNat < 128) :
    Bytewise (· ≠ UInt8.ofNat a.toNat) (· ≠ a) := by
  intro c b hb
  rcases Nat.lt_or_ge c.toNat 128 with hc | hc
  · rw [utf8EncodeChar_of_lt hc, List.mem_singleton] at hb
    subst hb
    rw [decide_eq_decide, not_iff_not]
    constructor
    · intro hbyte
      exact (mem_utf8EncodeChar_iff ha).mp (by simp [utf8EncodeChar_of_lt hc, hbyte])
    · rintro rfl
      rfl
  · have hne : c ≠ a := by
      rintro rfl
      omega
    have hbyte : b ≠ UInt8.ofNat a.toNat :=
      fun heq ↦ hne ((mem_utf8EncodeChar_iff ha).mp (heq ▸ hb))
    exact (decide_eq_true hbyte).trans (decide_eq_true hne).symm

/-- The digits of base ten. -/
theorem bytewise_isDigit : Bytewise (fun b ↦ 48 ≤ b && b ≤ 57) Char.isDigit := by
  refine .of_ascii (by decide +kernel) (fun b hb ↦ ?_) fun c hc ↦ ?_
  · rw [Bool.and_eq_true, decide_eq_true_eq, decide_eq_true_eq, UInt8.le_iff_toNat_le,
      UInt8.le_iff_toNat_le]
    have h57 : (57 : UInt8).toNat = 57 := rfl
    omega
  · rw [Char.isDigit_iff_toNat]
    have h9 : '9'.toNat = 57 := rfl
    omega

/-- The characters of words. -/
theorem bytewise_isWordPart : Bytewise
    (fun b ↦ (65 ≤ b && b ≤ 90) || (97 ≤ b && b ≤ 122) || (48 ≤ b && b ≤ 57) || b == 95)
    isWordPart := by
  refine .of_ascii (by decide +kernel) (fun b hb ↦ ?_) fun c hc ↦ ?_
  · simp only [Bool.or_eq_true, Bool.and_eq_true, decide_eq_true_eq, beq_iff_eq,
      UInt8.le_iff_toNat_le, ← UInt8.toNat_inj]
    have h90 : (90 : UInt8).toNat = 90 := rfl
    have h122 : (122 : UInt8).toNat = 122 := rfl
    have h57 : (57 : UInt8).toNat = 57 := rfl
    have h95 : (95 : UInt8).toNat = 95 := rfl
    omega
  · delta isWordPart Char.isAlphanum Char.isAlpha Char.isUpper Char.isLower Char.isDigit
    simp only [Bool.or_eq_true, Bool.and_eq_true, decide_eq_true_eq, beq_iff_eq,
      UInt32.le_iff_toNat_le, ← Char.toNat_inj, ge_iff_le]
    have hZ : 'Z'.val.toNat = 90 := rfl
    have hz : 'z'.val.toNat = 122 := rfl
    have h9 : '9'.val.toNat = 57 := rfl
    have hunderscore : '_'.toNat = 95 := rfl
    have hval : c.val.toNat = c.toNat := rfl
    omega

/-- The characters of a line comment. -/
theorem bytewise_line : Bytewise (· ≠ newlineByte) (· ≠ '\n') := .ne (a := '\n') (by decide)

/-- **Characters can be taken one byte at a time** for as long as they pass a test. -/
theorem skipWhile_bytesOf {test : UInt8 → Bool} {p : Char → Bool} (h : Bytewise test p)
    (front cs : List Char) : skipWhile test (bytesOf (front ++ cs)) (bytesOf front).length =
      (bytesOf (front ++ cs.takeWhile p)).length := by
  induction cs generalizing front with
  | nil => rw [List.append_nil, List.takeWhile_nil, List.append_nil, skipWhile_end]
  | cons c cs ih =>
    rw [bytesOf_append, bytesOf_cons]
    by_cases hc : p c
    · have hbytes : ∀ b ∈ String.utf8EncodeChar c, test b := fun b hb ↦ (h c b hb).trans hc
      rw [skipWhile_over _ _ hbytes, List.takeWhile_cons_of_pos hc]
      simpa using ih (front ++ [c])
    · obtain ⟨b, more, hb⟩ := List.exists_cons_of_ne_nil (String.utf8EncodeChar_ne_nil (c := c))
      have htest : ¬test b := by
        rw [h c b (by simp [hb])]
        exact hc
      rw [hb, List.cons_append, skipWhile_cons, if_neg htest, List.takeWhile_cons_of_neg hc,
        List.append_nil]

/-! ## Strings -/

/-- Behind the first byte of a character nothing looks like an ASCII character. -/
theorem le_of_mem_tail (hb : b ∈ (String.utf8EncodeChar c).tail) : 128 ≤ b.toNat := by
  rcases Nat.lt_or_ge c.toNat 128 with hc | hc
  · rw [utf8EncodeChar_of_lt hc] at hb
    cases hb
  · exact le_of_mem_utf8EncodeChar hc (List.mem_of_mem_tail hb)

/-- The byte of a character is none of another character. -/
theorem ne_of_mem_utf8EncodeChar {a : Char} (ha : a.toNat < 128) (hc : c ≠ a)
    (hb : b ∈ String.utf8EncodeChar c) : b ≠ UInt8.ofNat a.toNat :=
  fun heq ↦ hc ((mem_utf8EncodeChar_iff ha).mp (heq ▸ hb))

theorem utf8EncodeChar_backslash : String.utf8EncodeChar '\\' = [backslashByte] := by decide

/-- A newline ends the search for a quote. -/
theorem closingQuote?_newline (front cs : List Char) :
    closingQuote? q (bytesOf (front ++ '\n' :: cs)) (bytesOf front).length = none := by
  rw [bytesOf_append, bytesOf_cons, utf8EncodeChar_newline, List.singleton_append,
    closingQuote?_cons, if_pos rfl]

section

variable (hquote : isQuote quote)

include hquote

theorem eq_of_isQuote : quote = '"' ∨ quote = '\'' := by simpa [isQuote] using hquote

theorem toNat_lt_of_isQuote : quote.toNat < 128 := by
  rcases eq_of_isQuote hquote with rfl | rfl <;> decide

theorem quoteByte_ne : UInt8.ofNat quote.toNat ≠ newlineByte ∧
    UInt8.ofNat quote.toNat ≠ backslashByte := by
  rcases eq_of_isQuote hquote with rfl | rfl <;> decide

/-- The quote is found where it stands. -/
theorem closingQuote?_quote (front cs : List Char) :
    closingQuote? (UInt8.ofNat quote.toNat) (bytesOf (front ++ quote :: cs))
      (bytesOf front).length = some (bytesOf front).length := by
  rw [bytesOf_append, bytesOf_cons, utf8EncodeChar_of_lt (toNat_lt_of_isQuote hquote),
    List.singleton_append, closingQuote?_cons, if_neg (quoteByte_ne hquote).1, if_pos rfl]

/-- A character that means nothing in a string is passed over with all of its bytes. -/
theorem closingQuote?_ordinary (hc : c ≠ quote) (hn : c ≠ '\n') (hb : c ≠ '\\')
    (front cs : List Char) :
    closingQuote? (UInt8.ofNat quote.toNat) (bytesOf (front ++ c :: cs)) (bytesOf front).length =
      closingQuote? (UInt8.ofNat quote.toNat) (bytesOf (front ++ [c] ++ cs))
        (bytesOf (front ++ [c])).length := by
  have hbytes : ∀ b ∈ String.utf8EncodeChar c,
      b ≠ newlineByte ∧ b ≠ UInt8.ofNat quote.toNat ∧ b ≠ backslashByte := fun b hmem ↦
    ⟨ne_of_mem_utf8EncodeChar (a := '\n') (by decide) hn hmem,
      ne_of_mem_utf8EncodeChar (toNat_lt_of_isQuote hquote) hc hmem,
      ne_of_mem_utf8EncodeChar (a := '\\') (by decide) hb hmem⟩
  rw [bytesOf_append, bytesOf_cons, closingQuote?_over _ _ hbytes]
  simp

theorem closingQuote?_backslash (front cs : List Char) :
    closingQuote? (UInt8.ofNat quote.toNat) (bytesOf (front ++ '\\' :: cs))
        (bytesOf front).length =
      if (bytesOf cs).head?.any (· ≠ newlineByte) then
        closingQuote? (UInt8.ofNat quote.toNat) (bytesOf (front ++ '\\' :: cs))
          ((bytesOf front).length + 2)
      else closingQuote? (UInt8.ofNat quote.toNat) (bytesOf (front ++ ['\\'] ++ cs))
        (bytesOf (front ++ ['\\'])).length := by
  rw [bytesOf_append, bytesOf_cons, utf8EncodeChar_backslash, List.singleton_append,
    closingQuote?_cons, if_neg (by decide), if_neg (quoteByte_ne hquote).2.symm]
  simp [utf8EncodeChar_backslash]

/-- A backslash takes the first byte of a character along, and the others are passed over. -/
theorem closingQuote?_escape {d : Char} (hd : d ≠ '\n') (front cs : List Char) :
    closingQuote? (UInt8.ofNat quote.toNat) (bytesOf (front ++ '\\' :: d :: cs))
        (bytesOf front).length =
      closingQuote? (UInt8.ofNat quote.toNat) (bytesOf (front ++ ['\\', d] ++ cs))
        (bytesOf (front ++ ['\\', d])).length := by
  obtain ⟨b, more, hbytes⟩ := List.exists_cons_of_ne_nil (String.utf8EncodeChar_ne_nil (c := d))
  have hb : b ≠ newlineByte :=
    ne_of_mem_utf8EncodeChar (a := '\n') (by decide) hd (by simp [hbytes])
  have hlt : (UInt8.ofNat quote.toNat).toNat < 128 := by
    rcases eq_of_isQuote hquote with rfl | rfl <;> decide
  have hmore : ∀ x ∈ more,
      x ≠ newlineByte ∧ x ≠ UInt8.ofNat quote.toNat ∧ x ≠ backslashByte := by
    intro x hx
    have hle : 128 ≤ x.toNat := le_of_mem_tail (c := d) (by rwa [hbytes])
    refine ⟨?_, ?_, ?_⟩
    · rintro rfl
      exact absurd hle (by decide)
    · rintro rfl
      omega
    · rintro rfl
      exact absurd hle (by decide)
  have hover := closingQuote?_over (bytesOf front ++ [backslashByte, b]) (bytesOf cs) hmore
  rw [closingQuote?_backslash hquote, if_pos (by simp [hbytes, hb])]
  simpa [hbytes, utf8EncodeChar_backslash] using hover

/-- **A string can be read one byte at a time**: its quote is found where the characters have it. -/
theorem closingQuote?_bytesOf (front cs : List Char) :
    closingQuote? (UInt8.ofNat quote.toNat) (bytesOf (front ++ cs)) (bytesOf front).length =
      (stringText? quote cs).map fun text ↦ (bytesOf (front ++ text)).length := by
  fun_induction stringText? quote cs generalizing front with
  | case1 =>
    rw [List.append_nil, closingQuote?_end]
    rfl
  | case2 => rw [closingQuote?_quote hquote, Option.map_some, List.append_nil]
  | case3 c hc =>
    by_cases hn : c = '\n'
    · rw [hn, closingQuote?_newline]
      rfl
    · by_cases hb : c = '\\'
      · rw [hb, closingQuote?_backslash hquote, if_neg (by simp), List.append_nil,
          closingQuote?_end]
        rfl
      · rw [closingQuote?_ordinary hquote hc hn hb, List.append_nil, closingQuote?_end]
        rfl
  | case4 d cs => rw [closingQuote?_quote hquote, Option.map_some, List.append_nil]
  | case5 d cs hc =>
    rw [closingQuote?_newline]
    rfl
  | case6 c d cs hc hn hescape ih =>
    obtain ⟨rfl, hd⟩ := hescape
    rw [closingQuote?_escape hquote hd, ih (front ++ ['\\', d])]
    simp [Function.comp_def]
  | case7 c d cs hc hn hescape ih =>
    by_cases hb : c = '\\'
    · subst hb
      have hd : d = '\n' := by simpa using hescape
      rw [closingQuote?_backslash hquote, if_neg (by simp [hd, utf8EncodeChar_newline]),
        ih (front ++ ['\\'])]
      simp [Function.comp_def]
    · rw [closingQuote?_ordinary hquote hc hn hb, ih (front ++ [c])]
      simp [Function.comp_def]

end

/-! ## Comments -/

theorem utf8EncodeChar_star : String.utf8EncodeChar '*' = [starByte] := by decide

/-- A byte that looks like a slash begins a text only if a slash does. -/
theorem head?_bytesOf_eq_slash : (bytesOf cs).head? = some slashByte ↔ cs.head? = some '/' := by
  cases cs with
  | nil => simp
  | cons d cs =>
    obtain ⟨b, more, hb⟩ := List.exists_cons_of_ne_nil (String.utf8EncodeChar_ne_nil (c := d))
    rw [bytesOf_cons, hb, List.cons_append, List.head?_cons, List.head?_cons, Option.some.injEq,
      Option.some.injEq]
    constructor
    · rintro rfl
      exact (mem_utf8EncodeChar_iff (a := '/') (by decide)).mp (hb ▸ List.mem_cons_self)
    · rintro rfl
      exact (List.cons.inj hb).1.symm

/-- The marks are found at the position or further on. -/
theorem closingMarks?_star (front cs : List Char) :
    closingMarks? (bytesOf (front ++ '*' :: cs)) (bytesOf front).length =
      if cs.head? = some '/' then some (bytesOf front).length
      else closingMarks? (bytesOf (front ++ ['*'] ++ cs)) (bytesOf (front ++ ['*'])).length := by
  rw [bytesOf_append, bytesOf_cons, utf8EncodeChar_star, List.singleton_append,
    closingMarks?_cons]
  simp only [true_and, head?_bytesOf_eq_slash]
  simp [utf8EncodeChar_star]

/-- A character that is no star is passed over with all of its bytes. -/
theorem closingMarks?_ordinary (hc : c ≠ '*') (front cs : List Char) :
    closingMarks? (bytesOf (front ++ c :: cs)) (bytesOf front).length =
      closingMarks? (bytesOf (front ++ [c] ++ cs)) (bytesOf (front ++ [c])).length := by
  have hbytes : ∀ b ∈ String.utf8EncodeChar c, b ≠ starByte := fun b hb ↦
    ne_of_mem_utf8EncodeChar (a := '*') (by decide) hc hb
  rw [bytesOf_append, bytesOf_cons, closingMarks?_over _ _ hbytes]
  simp

/-- **A block comment can be read one byte at a time**: its marks are found where the characters
have them. -/
theorem closingMarks?_bytesOf (front cs : List Char) :
    closingMarks? (bytesOf (front ++ cs)) (bytesOf front).length =
      (blockText? cs).map fun text ↦ (bytesOf (front ++ text)).length := by
  fun_induction blockText? cs generalizing front with
  | case1 cs =>
    rw [closingMarks?_star, if_pos List.head?_cons, Option.map_some, List.append_nil]
  | case2 c cs hclose ih =>
    by_cases hc : c = '*'
    · subst hc
      have hnext : ¬cs.head? = some '/' := by
        intro hhead
        obtain ⟨rest, rfl⟩ := List.head?_eq_some_iff.mp hhead
        exact hclose rest rfl rfl
      rw [closingMarks?_star, if_neg hnext, ih (front ++ ['*'])]
      simp [Function.comp_def]
    · rw [closingMarks?_ordinary hc, ih (front ++ [c])]
      simp [Function.comp_def]
  | case3 =>
    rw [List.append_nil, closingMarks?_end]
    rfl

end ProtoSchema

import Mathlib.Data.List.DropRight
import ProtoSchema.Text.Position

/-!
# Places counted in bytes

A `Mark` counts along with the walk over a text.  Here the same two counts are read off the bytes of
the text, without a walk: `Position.inBytes` counts the newline bytes in front of an offset and the
bytes since the last of them.  `Mark.after_start` says that the walk counts right.

UTF-8 is what makes this possible.  No byte of a character outside of ASCII looks like an ASCII
character, so a newline byte is a newline, and counting bytes never mistakes half a character for a
line.  The same fact carries the byte loops in `Proofs/Token/Bytewise.lean`.

## What is here

* `bytesOf` — the bytes of a list of characters, and `bytesOf_toList`, that these are the bytes
  which the string is stored as.
* `utf8EncodeChar_of_lt`, `le_of_mem_utf8EncodeChar`, `mem_utf8EncodeChar_iff` — the bytes of one
  character: below 128 a character is its own byte, and above it all of its bytes are.
* `lineBegin`, `Position.inBytes` — the count.
* `Mark.after_start` — the walk agrees with the count, whatever stands ahead.
* `Position.Before` — the order of places, which is that of their offsets; so different offsets have
  different positions, and a position determines its offset.
-/

set_option autoImplicit false

namespace ProtoSchema

/-! ## The bytes of a text -/

/-- The characters in UTF-8. -/
def bytesOf (cs : List Char) : List UInt8 := cs.flatMap String.utf8EncodeChar

@[simp]
theorem bytesOf_nil : bytesOf [] = [] := rfl

@[simp]
theorem bytesOf_cons (c : Char) (cs : List Char) :
    bytesOf (c :: cs) = String.utf8EncodeChar c ++ bytesOf cs := rfl

@[simp]
theorem bytesOf_append (cs ds : List Char) : bytesOf (cs ++ ds) = bytesOf cs ++ bytesOf ds := by
  simp [bytesOf]

/-- They are the bytes that the string is stored as. -/
theorem bytesOf_toList (text : String) : bytesOf text.toList = text.toByteArray.data.toList := by
  have h : text.toList.utf8Encode = text.toByteArray := String.utf8Encode_toList
  rw [← h, List.utf8Encode, List.data_toByteArray, bytesOf]

theorem length_bytesOf_toList (text : String) :
    (bytesOf text.toList).length = text.utf8ByteSize := by
  rw [bytesOf_toList, Array.length_toList, ByteArray.size_data, String.size_toByteArray]

/-! ## Bytes of single characters

An ASCII character is one byte, its own code, and the bytes of any other character are none of these
codes.  So a byte that looks like an ASCII character is one (`mem_utf8EncodeChar_iff`), and a text
can be searched for such a character byte by byte. -/

/-- An ASCII character is one byte. -/
theorem utf8EncodeChar_of_lt {c : Char} (hc : c.toNat < 128) :
    String.utf8EncodeChar c = [UInt8.ofNat c.toNat] := by
  have hle : c.val.toNat ≤ 0x7f := Nat.le_of_lt_succ hc
  rw [String.utf8EncodeChar, if_pos hle]
  rfl

/-- All bytes of any other character are above those of ASCII. -/
theorem le_of_mem_utf8EncodeChar {c : Char} (hc : 128 ≤ c.toNat) {b : UInt8}
    (hb : b ∈ String.utf8EncodeChar c) : 128 ≤ b.toNat := by
  have hgt : ¬c.val.toNat ≤ 0x7f := Nat.not_le_of_gt hc
  rw [String.utf8EncodeChar, if_neg hgt] at hb
  split_ifs at hb <;> simp only [List.mem_cons, List.not_mem_nil, or_false] at hb <;>
    rcases hb with rfl | rfl | rfl | rfl <;> rw [UInt8.toNat_ofNat'] <;> omega

/-- A byte that looks like an ASCII character is that character. -/
theorem mem_utf8EncodeChar_iff {a c : Char} (ha : a.toNat < 128) :
    UInt8.ofNat a.toNat ∈ String.utf8EncodeChar c ↔ c = a := by
  have hbyte {d : Char} (hd : d.toNat < 128) : (UInt8.ofNat d.toNat).toNat = d.toNat :=
    UInt8.toNat_ofNat_of_lt' (Nat.lt_trans hd (by decide))
  constructor
  · intro hmem
    rcases Nat.lt_or_ge c.toNat 128 with hc | hc
    · rw [utf8EncodeChar_of_lt hc, List.mem_singleton] at hmem
      exact Char.toNat_inj.mp (by rw [← hbyte hc, ← hmem, hbyte ha])
    · have hle := le_of_mem_utf8EncodeChar hc hmem
      rw [hbyte ha] at hle
      omega
  · rintro rfl
    rw [utf8EncodeChar_of_lt ha]
    exact List.mem_singleton_self _

/-! ## Counting lines and columns -/

/-- The byte of a newline. -/
def newlineByte : UInt8 := 10

/-- How many bytes there are up to the last newline, that one included. -/
def lineBegin (bytes : List UInt8) : Nat := (bytes.rdropWhile (· != newlineByte)).length

/-- The line and column of a byte offset: the newlines in front of it, and the bytes since the last
one. -/
def Position.inBytes (bytes : List UInt8) (offset : Nat) : Position where
  line := 1 + (bytes.take offset).count newlineByte
  column := offset - lineBegin (bytes.take offset)

theorem utf8EncodeChar_newline : String.utf8EncodeChar '\n' = [newlineByte] := by decide

/-- In UTF-8 no byte of another character looks like a newline. -/
theorem newlineByte_notMem {c : Char} (hc : c ≠ '\n') :
    newlineByte ∉ String.utf8EncodeChar c :=
  fun hmem ↦ hc ((mem_utf8EncodeChar_iff (a := '\n') (by decide)).mp hmem)

theorem lineBegin_append_newline (bytes : List UInt8) :
    lineBegin (bytes ++ [newlineByte]) = bytes.length + 1 := by
  rw [lineBegin, List.rdropWhile_concat_neg _ _ _ (by simp)]
  simp

/-- A line goes on through bytes without a newline. -/
theorem lineBegin_append {bytes more : List UInt8} (h : newlineByte ∉ more) :
    lineBegin (bytes ++ more) = lineBegin bytes := by
  induction more using List.reverseRecOn with
  | nil => simp
  | append_singleton more b ih =>
    rw [List.mem_append, not_or, List.mem_singleton] at h
    rw [← List.append_assoc, lineBegin, List.rdropWhile_concat_pos _ _ _
      (by simpa using Ne.symm h.2)]
    exact ih h.1

theorem lineBegin_le (bytes : List UInt8) : lineBegin bytes ≤ bytes.length :=
  (List.rdropWhile_prefix _ bytes).length_le

/-- **A walk from the start of a text counts right.** -/
theorem Mark.after_start (walked ahead : List Char) :
    Mark.start.after walked =
      ⟨(bytesOf walked).length,
        .inBytes (bytesOf (walked ++ ahead)) (bytesOf walked).length⟩ := by
  rw [Position.inBytes, bytesOf_append, List.take_left]
  induction walked using List.reverseRecOn with
  | nil => simp [Mark.start, lineBegin]
  | append_singleton cs c ih =>
    rw [Mark.after_append, ih, Mark.after_cons, Mark.after_nil, Mark.next]
    have hle := lineBegin_le (bytesOf cs)
    by_cases hc : c = '\n'
    · subst hc
      simp [utf8EncodeChar_newline, lineBegin_append_newline, Nat.add_assoc]
      decide
    · have hn := newlineByte_notMem hc
      simp [hc, lineBegin_append hn, List.count_eq_zero_of_not_mem hn]
      omega

/-! ## The order of places -/

/-- An earlier place: on an earlier line, or on the same line with fewer bytes in front. -/
def Position.Before (p q : Position) : Prop :=
  p.line < q.line ∨ p.line = q.line ∧ p.column < q.column

theorem Position.Before.ne {p q : Position} (h : p.Before q) : p ≠ q := by
  rintro rfl
  rcases h with h | h
  · exact Nat.lt_irrefl _ h
  · exact Nat.lt_irrefl _ h.2

/-- A later offset is a later place. -/
theorem Position.inBytes_before (bytes : List UInt8) {i j : Nat} (h : i < j) :
    (inBytes bytes i).Before (inBytes bytes j) := by
  obtain ⟨more, hmore⟩ : ∃ more, bytes.take j = bytes.take i ++ more :=
    ⟨_, (List.take_append_drop i (bytes.take j)).symm.trans
      (by rw [List.take_take, Nat.min_eq_left h.le])⟩
  by_cases hnewline : newlineByte ∈ more
  · have hcount := List.count_pos_iff.mpr hnewline
    left
    show 1 + (bytes.take i).count newlineByte < 1 + (bytes.take j).count newlineByte
    rw [hmore, List.count_append]
    omega
  -- With no newline between the two, the columns are counted from the same place.
  · have hbegin : lineBegin (bytes.take i) ≤ i :=
      (lineBegin_le _).trans (List.length_take_le i bytes)
    right
    constructor
    · show 1 + (bytes.take i).count newlineByte = 1 + (bytes.take j).count newlineByte
      rw [hmore, List.count_append, List.count_eq_zero_of_not_mem hnewline, Nat.add_zero]
    · show i - lineBegin (bytes.take i) < j - lineBegin (bytes.take j)
      rw [hmore, lineBegin_append hnewline]
      omega

/-- Different offsets have different positions. -/
theorem Position.inBytes_injective (bytes : List UInt8) : Function.Injective (inBytes bytes) := by
  intro i j h
  rcases Nat.lt_trichotomy i j with hij | hij | hij
  · exact absurd h (inBytes_before bytes hij).ne
  · exact hij
  · exact absurd h.symm (inBytes_before bytes hij).ne

end ProtoSchema

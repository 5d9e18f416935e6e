import ProtoSchema.Proofs.Grammar.Derivation
import ProtoSchema.Proofs.Grammar.Reading
import ProtoSchema.Schema.Map

/-!
# The rules for statements read what the grammar says

For every rule, whatever it makes is derived by the symbols that it has taken, all of them and in
their order.  Here are the rules up to single statements.  The notes of a derivation are what `note`
makes of the extents that the rules put on the nodes.

Each statement is proved from those of the rules that its rule is made of, in the order in which it
runs them.

## What is here

* `Reader.name_reads` to `Reader.typeRef_reads` — names of all sorts.
* `Reader.IsUnsigned`, `Reader.unsigned_reads`, `Reader.literal_ok`, `Reader.constant_reads` —
  values.
* `Reader.integer_reads`, `Reader.fieldNumber_reads`, `Reader.range_reads` — numbers.
* `Reader.settingEntry_reads`, `Reader.bracketedSettings_reads`, `Reader.settingFrom_reads` —
  options.
* `Reader.numbered_ok` — the name, number and options that all sorts of fields have.
* `Reader.fieldFrom_reads`, `Reader.mapFieldFrom_reads`, `Reader.enumValueFrom_reads` — fields.
* `Reader.extensionsFrom_reads`, `Reader.reservedFrom_reads` — numbers and names that are set apart.
-/

set_option autoImplicit false

namespace ProtoSchema

open Grammar Rule Phrase

namespace Reader

variable {ν : Type} (note : Extent → ν) {r : Reader} {i : Nat} {rest : List Symbol} {c' : Cursor}

/-! ## Names -/

theorem name_reads : r.ReadsWhole name Name := by
  intro i rest w c' h
  simp only [run, name, bind_eq_ok_iff, current_eq_ok_iff] at h
  obtain ⟨_, _, ⟨rfl, rfl⟩, h⟩ := h
  split at h
  · rename_i hname
    obtain ⟨e, c₁, htake, hpure⟩ := bind_eq_ok_iff.mp h
    obtain ⟨rfl, rfl⟩ := pure_eq_ok_iff.mp hpure
    obtain ⟨s, rest, rfl, rfl, rfl⟩ := take_ok htake (Symbol.kind_ne_of_isName hname nofun nofun)
    exact ⟨[s], rest, rfl, rfl, .mk hname⟩
  · cases h

/-- Behind a first name, the others with a dot in front of each. -/
theorem dotted_ok {head text : String} (h : r.run (dotted head) i rest = .ok (text, c')) :
    ∃ s rest', rest = s ++ rest' ∧ c' = ⟨i + s.length, rest', r.stop⟩ ∧
      (rest' ≠ [] → text = head ++ spelled s ∧ ∃ ws, Many (Behind .dot Name) i ws s) := by
  simp only [run, dotted, bind_eq_ok_iff, pure_eq_ok_iff] at h
  obtain ⟨ws, c₁, hws, rfl, rfl⟩ := h
  obtain ⟨s, rest, rfl, rfl, hs⟩ := many_behind name_reads.reads hws
  exact ⟨s, rest, rfl, rfl, fun hl ↦ ⟨joinDots_eq (hs hl) head, ws, hs hl⟩⟩

theorem fullName_reads : r.Reads fullName (.under (FullName.map note) (FullName.Derives note)) := by
  intro i rest x c' h
  simp only [run, fullName, bind_eq_ok_iff, current_eq_ok_iff, extentFrom_eq_ok_iff,
    pure_eq_ok_iff] at h
  obtain ⟨_, _, ⟨rfl, rfl⟩, w, c₁, hw, text, c₂, htext, _, _, ⟨rfl, rfl⟩, rfl, rfl⟩ := h
  obtain ⟨s, rest, rfl, rfl, hs⟩ := name_reads hw
  obtain ⟨t, rest, rfl, rfl, ht⟩ := dotted_ok htext
  have hlen : i + s.length + t.length = i + (s ++ t).length := by simp; omega
  refine ⟨s ++ t, rest, by simp, by rw [hlen], fun hl ↦ ?_⟩
  obtain ⟨rfl, ws, hws⟩ := ht hl
  have htext : w ++ spelled t = spelled (s ++ t) := by rw [spelled_append, hs.spelled_eq]
  show FullName.Derives note i ⟨w ++ spelled t, note ⟨i, i + s.length + t.length⟩⟩ (s ++ t)
  rw [htext, hlen]
  exact .mk hs hws

/-- The current symbol, if it is a dot. -/
theorem optionalDot_ok {x : Option Entry} (h : r.run (takeIf (·.is .dot)) i rest = .ok (x, c')) :
    ∃ s rest', rest = s ++ rest' ∧ c' = ⟨i + s.length, rest', r.stop⟩ ∧ OptionalDot s ∧
      (if x.isSome then "." else "") = spelled s := by
  rcases takeKind_ok h nofun with ⟨rfl, rfl, -⟩ | ⟨s, rest, rfl, rfl, rfl, hs⟩
  · exact ⟨[], rest, rfl, rfl, .none, rfl⟩
  · exact ⟨[s], rest, rfl, rfl, .some hs, by simp [Symbol.spelling_of_kind hs rfl]⟩

/-- The name of an extension with its parentheses. -/
theorem extensionName_ok {text : String} (h : r.run extensionName i rest = .ok (text, c')) :
    ∃ s rest', rest = s ++ rest' ∧ c' = ⟨i + s.length, rest', r.stop⟩ ∧ text = spelled s ∧
      OptionName.Extension note i s := by
  simp only [run, extensionName, bind_eq_ok_iff, pure_eq_ok_iff] at h
  obtain ⟨_, c₁, el, root, c₂, eroot, n, c₃, en, _, c₄, er, rfl, rfl⟩ := h
  obtain ⟨l, rest, rfl, rfl, rfl, hl⟩ := expect_ok el nofun
  obtain ⟨dots, rest, rfl, rfl, hdots, htext⟩ := optionalDot_ok eroot
  obtain ⟨s, rest, rfl, rfl, hs⟩ := fullName_reads note en
  obtain ⟨right, rest, rfl, rfl, rfl, hr⟩ := expect_ok er nofun
  have hn := hs (List.cons_ne_nil _ _)
  refine ⟨l :: (dots ++ (s ++ [right])), rest, by simp, by simp; omega, ?_, .mk hl hdots hn hr⟩
  have hname : n.text = spelled s := hn.spelled_eq.symm
  rw [htext, hname]
  simp [Symbol.spelling_of_kind hl rfl, Symbol.spelling_of_kind hr rfl, String.append_assoc]

theorem optionName_reads :
    r.Reads optionName (.under (OptionName.map note) (OptionName.Derives note)) := by
  intro i rest x c' h
  have derives {head : String} {s t : List Symbol} (htext : head = spelled s)
      (hd : OptionName.Derives note i ⟨spelled (s ++ t), note ⟨i, i + (s ++ t).length⟩⟩ (s ++ t)) :
      OptionName.Derives note i
        ⟨head ++ spelled t, note ⟨i, i + s.length + t.length⟩⟩ (s ++ t) := by
    rwa [htext, ← spelled_append, Nat.add_assoc, ← List.length_append]
  simp only [run, optionName, bind_eq_ok_iff, current_eq_ok_iff] at h
  obtain ⟨_, _, ⟨rfl, rfl⟩, h⟩ := h
  split at h <;> simp only [bind_eq_ok_iff, extentFrom_eq_ok_iff, pure_eq_ok_iff] at h <;>
    obtain ⟨head, c₁, ehead, text, c₂, etext, _, _, ⟨rfl, rfl⟩, rfl, rfl⟩ := h
  · obtain ⟨s, rest, rfl, rfl, hs, hderives⟩ := extensionName_ok note ehead
    obtain ⟨t, rest, rfl, rfl, ht⟩ := dotted_ok etext
    refine ⟨s ++ t, rest, by simp, by simp; omega, fun hl ↦ ?_⟩
    obtain ⟨rfl, ws, hws⟩ := ht hl
    exact derives hs (.extension hderives hws)
  · obtain ⟨s, rest, rfl, rfl, hs⟩ := name_reads ehead
    obtain ⟨t, rest, rfl, rfl, ht⟩ := dotted_ok etext
    refine ⟨s ++ t, rest, by simp, by simp; omega, fun hl ↦ ?_⟩
    obtain ⟨rfl, ws, hws⟩ := ht hl
    exact derives hs.spelled_eq.symm (.plain hs hws)

theorem rootedName_ok {text : String} (h : r.run rootedName i rest = .ok (text, c')) :
    ∃ s rest', rest = s :: rest' ∧ c' = ⟨i + 1, rest', r.stop⟩ ∧ s.kind = .identifier ∧
      text = "." ++ s.lexeme := by
  simp only [run, rootedName, bind_eq_ok_iff, current_eq_ok_iff] at h
  obtain ⟨_, _, ⟨rfl, rfl⟩, h⟩ := h
  split at h
  · rename_i his
    have hkind : (rest.headD r.stop).kind = .identifier := Symbol.is_iff.mp his
    obtain ⟨e, c₁, htake, hpure⟩ := bind_eq_ok_iff.mp h
    obtain ⟨rfl, rfl⟩ := pure_eq_ok_iff.mp hpure
    obtain ⟨s, rest, rfl, rfl, rfl⟩ := take_ok htake (hkind ▸ nofun)
    exact ⟨s, rest, rfl, rfl, hkind, rfl⟩
  · cases h

/-- A type reference behind its first symbol. -/
theorem typeRefFrom_ok {first : Symbol} {x : TypeRef Extent} (hfirst : startsType first)
    (h : r.run (typeRefFrom ⟨i, first⟩) (i + 1) rest = .ok (x, c')) :
    ∃ s rest', rest = s ++ rest' ∧ c' = ⟨i + 1 + s.length, rest', r.stop⟩ ∧
      (rest' ≠ [] → (x.map note).Derives note i (first :: s)) := by
  simp only [run, typeRefFrom] at h
  split at h
  · rename_i hprimitive
    simp only [bind_eq_ok_iff, extentFrom_eq_ok_iff, pure_eq_ok_iff] at h
    obtain ⟨_, _, ⟨rfl, rfl⟩, rfl, rfl⟩ := h
    exact ⟨[], rest, rfl, rfl, fun _ ↦ .primitive (Symbol.is_iff.mp hprimitive)⟩
  · rename_i hprimitive
    split at h
    · rename_i hdot
      have hk := Symbol.is_iff.mp hdot
      simp only [bind_eq_ok_iff, extentFrom_eq_ok_iff, pure_eq_ok_iff] at h
      obtain ⟨head, c₁, ehead, text, c₂, etext, _, _, ⟨rfl, rfl⟩, rfl, rfl⟩ := h
      obtain ⟨s, rest, rfl, rfl, hs, rfl⟩ := rootedName_ok ehead
      obtain ⟨t, rest, rfl, rfl, ht⟩ := dotted_ok etext
      refine ⟨s :: t, rest, by simp, by simp; omega, fun hl ↦ ?_⟩
      obtain ⟨rfl, ws, hws⟩ := ht hl
      have hd : TypeRef.Derives note _ _ _ := .named (OptionalDot.some hk) hs hws
      have hspelling : s.spelling = s.lexeme :=
        Symbol.spelling_of_isName (Symbol.isName_of_kind hs)
      simpa [TypeRef.map, Symbol.spelling_of_kind hk rfl, hspelling, String.append_assoc,
        Nat.add_assoc, Nat.add_comm, Nat.add_left_comm] using hd
    · rename_i hdot
      simp only [bind_eq_ok_iff, extentFrom_eq_ok_iff, pure_eq_ok_iff] at h
      obtain ⟨_, _, ⟨rfl, rfl⟩, text, c₂, etext, _, _, ⟨rfl, rfl⟩, rfl, rfl⟩ := h
      obtain ⟨t, rest, rfl, rfl, ht⟩ := dotted_ok etext
      refine ⟨t, rest, rfl, rfl, fun hl ↦ ?_⟩
      obtain ⟨rfl, ws, hws⟩ := ht hl
      have hk : first.kind = .identifier := by
        simp only [startsType, Symbol.isName, Symbol.is, Bool.or_eq_true, beq_iff_eq] at *
        rcases hfirst with (h | h) | h
        · exact h
        · exact absurd h hprimitive
        · exact absurd h hdot
      have hd : TypeRef.Derives note _ _ _ := .named OptionalDot.none hk hws
      have hspelling : first.spelling = first.lexeme :=
        Symbol.spelling_of_isName (Symbol.isName_of_kind hk)
      simpa [TypeRef.map, hspelling, Nat.add_assoc, Nat.add_comm, Nat.add_left_comm] using hd

theorem typeRef_reads : r.Reads typeRef (.under (TypeRef.map note) (TypeRef.Derives note)) := by
  intro i rest x c' h
  simp only [run, typeRef, bind_eq_ok_iff, current_eq_ok_iff] at h
  obtain ⟨_, _, ⟨rfl, rfl⟩, h⟩ := h
  split at h
  · rename_i hstarts
    obtain ⟨e, c₁, htake, h⟩ := bind_eq_ok_iff.mp h
    obtain ⟨s, rest, rfl, rfl, rfl⟩ := take_ok htake (kind_ne_eof_of_startsType hstarts)
    obtain ⟨t, rest, rfl, rfl, ht⟩ := typeRefFrom_ok note hstarts h
    exact ⟨s :: t, rest, rfl, by simp; omega, ht⟩
  · cases h

/-! ## Values -/

theorem stringText_reads : r.ReadsWhole stringText Text := by
  intro i rest content c' h
  simp only [run, stringText, bind_eq_ok_iff, current_eq_ok_iff] at h
  obtain ⟨_, _, ⟨rfl, rfl⟩, h⟩ := h
  split at h
  · rename_i text htext
    obtain ⟨e, c₁, htake, hpure⟩ := bind_eq_ok_iff.mp h
    obtain ⟨rfl, rfl⟩ := pure_eq_ok_iff.mp hpure
    obtain ⟨his, htext⟩ := Option.ite_none_right_eq_some.mp htext
    have hkind : (rest.headD r.stop).kind = .string := Symbol.is_iff.mp his
    obtain ⟨s, rest, rfl, rfl, rfl⟩ := take_ok htake (hkind ▸ nofun)
    exact ⟨[s], rest, rfl, rfl, .mk hkind htext⟩
  · cases h

/-- What a number is behind its sign. -/
def IsUnsigned (negative : Bool) (v : Literal) (s : Symbol) : Prop :=
  s.isWord "inf" ∧ v = .float (.infinity negative) ∨ s.isWord "nan" ∧ v = .float .nan ∨
    ∃ n, s.number? = some n ∧ ¬s.isWord "inf" ∧ ¬s.isWord "nan" ∧ v = n.literal negative

theorem IsUnsigned.derives_number {s : Symbol} {v : Literal} (h : IsUnsigned false v s)
    (hk : s.kind = .number) : v.Derives i [s] := by
  rcases h with ⟨hword, -⟩ | ⟨hword, -⟩ | ⟨n, hn, -, -, rfl⟩
  · exact absurd (hk.symm.trans (Symbol.kind_of_isWord hword)) nofun
  · exact absurd (hk.symm.trans (Symbol.kind_of_isWord hword)) nofun
  · exact .number hk hn

theorem IsUnsigned.derives_signed {negative : Bool} {sign s : Symbol} {v : Literal}
    (h : IsUnsigned negative v s) (hsign : sign.kind = signKind negative) :
    v.Derives i [sign, s] := by
  rcases h with ⟨hword, rfl⟩ | ⟨hword, rfl⟩ | ⟨n, hn, hinf, hnan, rfl⟩
  · exact .infinity hsign hword
  · exact .nan hsign hword
  · exact .signed hsign hn hinf hnan

theorem isWord_of_bool {s : Symbol} (h : s.isWord "true" || s.isWord "false") :
    s.isWord (if s.lexeme == "true" then "true" else "false") := by
  simp only [Bool.or_eq_true, Symbol.isWord_iff] at h ⊢
  rcases h with ⟨hk, hl⟩ | ⟨hk, hl⟩ <;> exact ⟨hk, by rw [hl]; rfl⟩

theorem kind_of_sign {s : Symbol} (h : s.is .minus || s.is .plus) :
    s.kind = signKind (s.is .minus) := by
  simp only [Bool.or_eq_true, Symbol.is_iff] at h
  rcases h with hk | hk <;> rw [Symbol.is, hk] <;> rfl

theorem signKind_ne_eof (negative : Bool) : signKind negative ≠ .eof := by
  cases negative <;> nofun

theorem unsigned_reads {negative : Bool} :
    r.Reads (unsigned negative) fun _ v s ↦ ∃ symbol, s = [symbol] ∧
      IsUnsigned negative v symbol := by
  intro i rest v c' h
  simp only [run, unsigned, bind_eq_ok_iff, current_eq_ok_iff] at h
  obtain ⟨_, _, ⟨rfl, rfl⟩, h⟩ := h
  -- Every branch takes the symbol that it has looked at.
  have taken {w : Literal} (hw : IsUnsigned negative w (rest.headD r.stop))
      (h : r.run (take >>= fun _ ↦ pure w) i rest = .ok (v, c')) :
      ∃ s rest', rest = s ++ rest' ∧ c' = ⟨i + s.length, rest', r.stop⟩ ∧
        (rest' ≠ [] → ∃ symbol, s = [symbol] ∧ IsUnsigned negative v symbol) := by
    obtain ⟨e, c₁, htake, hpure⟩ := bind_eq_ok_iff.mp h
    obtain ⟨rfl, rfl⟩ := pure_eq_ok_iff.mp hpure
    obtain ⟨s, rest, rfl, rfl, hs⟩ := take_reads htake
    refine ⟨s, rest, rfl, rfl, fun hl ↦ ?_⟩
    obtain ⟨-, rfl⟩ := hs hl
    exact ⟨_, rfl, hw⟩
  split at h
  · rename_i hinf
    exact taken (.inl ⟨hinf, rfl⟩) h
  · rename_i hinf
    split at h
    · rename_i hnan
      exact taken (.inr (.inl ⟨hnan, rfl⟩)) h
    · rename_i hnan
      split at h
      · rename_i n hn
        exact taken (.inr (.inr ⟨.integer n, hn, hinf, hnan, rfl⟩)) h
      · rename_i x hx
        exact taken (.inr (.inr ⟨.float x, hx, hinf, hnan, rfl⟩)) h
      · cases h

/-- A literal, which the current symbol begins. -/
theorem literal_ok {v : Literal} (h : r.run (literal (rest.headD r.stop)) i rest = .ok (v, c')) :
    ∃ s rest', rest = s ++ rest' ∧ c' = ⟨i + s.length, rest', r.stop⟩ ∧
      (rest' ≠ [] → v.Derives i s) := by
  simp only [run, literal] at h
  split at h
  · rename_i hbool
    have hword := isWord_of_bool hbool
    obtain ⟨e, c₁, htake, hpure⟩ := bind_eq_ok_iff.mp h
    obtain ⟨rfl, rfl⟩ := pure_eq_ok_iff.mp hpure
    obtain ⟨s, rest, rfl, rfl, rfl⟩ := take_ok htake (by rw [Symbol.kind_of_isWord hword]; simp)
    exact ⟨[s], rest, rfl, rfl, fun _ ↦ .bool hword⟩
  · split at h
    · obtain ⟨text, c₁, htext, hpure⟩ := bind_eq_ok_iff.mp h
      obtain ⟨rfl, rfl⟩ := pure_eq_ok_iff.mp hpure
      obtain ⟨s, rest, rfl, rfl, hs⟩ := stringText_reads htext
      exact ⟨s, rest, rfl, rfl, fun _ ↦ .text hs⟩
    · split at h
      · rename_i hnumber
        obtain ⟨s, rest, rfl, rfl, hs⟩ := unsigned_reads h
        refine ⟨s, rest, rfl, rfl, fun hl ↦ ?_⟩
        obtain ⟨symbol, rfl, hsymbol⟩ := hs hl
        exact hsymbol.derives_number (Symbol.is_iff.mp hnumber)
      · split at h
        · rename_i hsign
          have hk := kind_of_sign hsign
          obtain ⟨e, c₁, htake, hunsigned⟩ := bind_eq_ok_iff.mp h
          obtain ⟨sign, rest, rfl, rfl, rfl⟩ := take_ok htake (hk ▸ signKind_ne_eof _)
          obtain ⟨s, rest, rfl, rfl, hs⟩ := unsigned_reads hunsigned
          refine ⟨sign :: s, rest, rfl, by simp; omega, fun hl ↦ ?_⟩
          obtain ⟨symbol, rfl, hsymbol⟩ := hs hl
          exact hsymbol.derives_signed hk
        · cases h

theorem constant_reads : r.Reads constant (.under (Constant.map note) (Constant.Derives note)) := by
  intro i rest x c' h
  simp only [run, constant, bind_eq_ok_iff, current_eq_ok_iff] at h
  obtain ⟨_, _, ⟨rfl, rfl⟩, h⟩ := h
  split at h
  · rename_i hstarts
    obtain ⟨n, c₁, en, hpure⟩ := bind_eq_ok_iff.mp h
    obtain ⟨rfl, rfl⟩ := pure_eq_ok_iff.mp hpure
    obtain ⟨s, rest, rfl, rfl, hs⟩ := fullName_reads note en
    refine ⟨s, rest, rfl, rfl, fun hl ↦ ?_⟩
    obtain ⟨first, t, rfl, -⟩ := (hs hl).exists_cons
    exact .name hstarts (hs hl)
  · simp only [bind_eq_ok_iff, extentFrom_eq_ok_iff, pure_eq_ok_iff] at h
    obtain ⟨v, c₁, ev, _, _, ⟨rfl, rfl⟩, rfl, rfl⟩ := h
    obtain ⟨s, rest, rfl, rfl, hs⟩ := literal_ok ev
    exact ⟨s, rest, rfl, rfl, fun hl ↦ .literal (hs hl)⟩

theorem integer_reads : r.Reads integer Integer := by
  intro i rest n c' h
  simp only [run, integer, bind_eq_ok_iff, current_eq_ok_iff] at h
  obtain ⟨minus, c₁, eminus, _, _, ⟨rfl, rfl⟩, h⟩ := h
  obtain ⟨m, hm, hfits, rfl, rfl⟩ : ∃ m, c₁.current.symbol.number? = some (.integer m) ∧
      fitsInteger n ∧ c₁.advance = c' ∧ (if minus.isSome then -(m : Int) else m) = n := by
    split at h
    · rename_i m hm
      obtain ⟨_, _, htake, h⟩ := bind_eq_ok_iff.mp h
      cases htake
      by_cases hfits : fitsInteger (if minus.isSome then -(m : Int) else m)
      · rw [if_pos hfits] at h
        obtain ⟨rfl, rfl⟩ := pure_eq_ok_iff.mp h
        exact ⟨m, hm, hfits, rfl, rfl⟩
      · rw [if_neg hfits] at h
        cases h
    · cases h
  rcases takeKind_ok eminus nofun with ⟨rfl, rfl, hs⟩ | ⟨sign, rest, rfl, rfl, rfl, hsign⟩
  · cases rest with
    | nil => exact ⟨[], [], rfl, rfl, fun hl ↦ absurd rfl hl⟩
    | cons s rest => exact ⟨[s], rest, rfl, rfl, fun _ ↦ .plain (.mk hm hfits) hs⟩
  · cases rest with
    | nil => exact ⟨[sign], [], rfl, rfl, fun hl ↦ absurd rfl hl⟩
    | cons s rest => exact ⟨[sign, s], rest, rfl, rfl, fun _ ↦ .negative hsign hm hfits⟩

theorem fieldNumber_reads : r.Reads fieldNumber (FieldNumber Integer r.config) := by
  intro i rest n c' h
  simp only [run, fieldNumber, bind_eq_ok_iff, current_eq_ok_iff] at h
  obtain ⟨_, _, ⟨rfl, rfl⟩, n', c₁, en, h⟩ := h
  obtain ⟨s, rest, rfl, rfl, hs⟩ := integer_reads en
  split at h
  · obtain ⟨_, _, hdemand, hpure⟩ := bind_eq_ok_iff.mp h
    obtain ⟨rfl, rfl⟩ := pure_eq_ok_iff.mp hpure
    simp only [Rule.run] at hdemand
    split at hdemand
    · rename_i hallowed
      cases hdemand
      exact ⟨s, rest, rfl, rfl, fun hl ↦ .mk (hs hl) (.inr hallowed)⟩
    · cases hdemand
  · rename_i hn
    obtain ⟨rfl, rfl⟩ := pure_eq_ok_iff.mp h
    exact ⟨s, rest, rfl, rfl, fun hl ↦ .mk (hs hl) (.inl (Int.not_lt.mp hn))⟩

theorem range_reads : r.Reads range (NumberRange.Derives Integer) := by
  intro i rest x c' h
  simp only [run, range, bind_eq_ok_iff] at h
  obtain ⟨low, c₁, elow, to?, c₂, eto, h⟩ := h
  obtain ⟨s, rest, rfl, rfl, hs⟩ := integer_reads elow
  rcases takeWord_ok eto with ⟨rfl, rfl, -⟩ | ⟨mid, rest, rfl, rfl, rfl, hto⟩
  · obtain ⟨rfl, rfl⟩ := pure_eq_ok_iff.mp h
    exact ⟨s, rest, rfl, rfl, fun hl ↦ .single (hs hl)⟩
  · obtain ⟨max?, c₃, emax, h⟩ := bind_eq_ok_iff.mp h
    have hlow := hs (List.cons_ne_nil _ _)
    rcases takeWord_ok emax with ⟨rfl, rfl, hmax⟩ | ⟨max, rest, rfl, rfl, rfl, hmax⟩
    · obtain ⟨high, c₄, ehigh, hpure⟩ := bind_eq_ok_iff.mp h
      obtain ⟨rfl, rfl⟩ := pure_eq_ok_iff.mp hpure
      obtain ⟨t, rest, rfl, rfl, ht⟩ := integer_reads ehigh
      refine ⟨s ++ mid :: t, rest, by simp, by simp; omega, fun hl ↦ .span hlow hto (ht hl) ?_⟩
      exact fun first hfirst ↦ by rwa [headD_append_of_mem_head? hfirst] at hmax
    · obtain ⟨rfl, rfl⟩ := pure_eq_ok_iff.mp h
      exact ⟨s ++ [mid, max], rest, by simp, by simp; omega, fun _ ↦ .toMax hlow hto hmax⟩

/-! ## Options -/

theorem settingEntry_reads :
    r.Reads settingEntry (.under (Setting.map note) (Setting.DerivesEntry note)) := by
  intro i rest x c' h
  simp only [run, settingEntry, bind_eq_ok_iff, current_eq_ok_iff, extentFrom_eq_ok_iff,
    pure_eq_ok_iff] at h
  obtain ⟨_, _, ⟨rfl, rfl⟩, n, c₁, en, _, c₂, eeq, v, c₃, ev, _, _, ⟨rfl, rfl⟩, rfl, rfl⟩ := h
  obtain ⟨s, rest, rfl, rfl, hs⟩ := optionName_reads note en
  obtain ⟨eq, rest, rfl, rfl, rfl, heq⟩ := expect_ok eeq nofun
  obtain ⟨t, rest, rfl, rfl, ht⟩ := constant_reads note ev
  have hlen : i + s.length + 1 + t.length = i + (s ++ eq :: t).length := by simp; omega
  refine ⟨s ++ eq :: t, rest, by simp, by rw [hlen], fun hl ↦ ?_⟩
  rw [hlen]
  exact .mk (hs (List.cons_ne_nil _ _)) heq (ht hl)

theorem bracketedSettings_reads :
    r.ReadsWhole bracketedSettings
      (.under (List.map (Setting.map note)) (Setting.Bracketed note)) := by
  intro i rest xs c' h
  simp only [run, bracketedSettings, bind_eq_ok_iff] at h
  obtain ⟨l?, c₁, el, h⟩ := h
  rcases takeKind_ok el nofun with ⟨rfl, rfl, -⟩ | ⟨l, rest, rfl, rfl, rfl, hl⟩
  · obtain ⟨rfl, rfl⟩ := pure_eq_ok_iff.mp h
    exact ⟨[], rest, rfl, rfl, .none⟩
  · simp only [bind_eq_ok_iff, pure_eq_ok_iff] at h
    obtain ⟨ys, c₂, eys, _, c₃, er, rfl, rfl⟩ := h
    obtain ⟨s, rest, rfl, rfl, hs⟩ := separated_reads (settingEntry_reads note) eys
    obtain ⟨right, rest, rfl, rfl, rfl, hr⟩ := expect_ok er nofun
    refine ⟨l :: (s ++ [right]), rest, by simp, by simp; omega, .some hl ?_ hr⟩
    exact (hs (List.cons_ne_nil _ _)).imp fun _ _ _ h ↦ h

theorem settingFrom_reads :
    r.ReadsBehind (·.isWord "option") settingFrom
      (.under (Setting.map note) (Setting.Derives note)) := by
  intro i word rest x c' hword h
  simp only [run, settingFrom, bind_eq_ok_iff, extentFrom_eq_ok_iff, pure_eq_ok_iff] at h
  obtain ⟨n, c₁, en, _, c₂, eeq, v, c₃, ev, _, c₄, esemi, _, _, ⟨rfl, rfl⟩, rfl, rfl⟩ := h
  obtain ⟨s, rest, rfl, rfl, hs⟩ := optionName_reads note en
  obtain ⟨eq, rest, rfl, rfl, rfl, heq⟩ := expect_ok eeq nofun
  obtain ⟨t, rest, rfl, rfl, ht⟩ := constant_reads note ev
  obtain ⟨semi, rest, rfl, rfl, rfl, hsemi⟩ := expect_ok esemi nofun
  have hlen : i + 1 + s.length + 1 + t.length + 1 =
      i + (word :: (s ++ eq :: (t ++ [semi]))).length := by
    simp
    omega
  refine ⟨s ++ eq :: (t ++ [semi]), rest, by simp, by simp; omega, ?_⟩
  rw [hlen]
  exact .mk hword (hs (List.cons_ne_nil _ _)) heq (ht (List.cons_ne_nil _ _)) hsemi

/-! ## Fields -/

/-- What the rules for fields of all sorts do behind the type. -/
theorem numbered_ok {w : String} {e : Entry} {n : Int} {options : List (Setting Extent)}
    {c₁ c₂ c₃ c₄ : Cursor} (ename : r.run name i rest = .ok (w, c₁))
    (eeq : (expect .equal).run r.config r.nested c₁ = .ok (e, c₂))
    (en : fieldNumber.run r.config r.nested c₂ = .ok (n, c₃))
    (eo : bracketedSettings.run r.config r.nested c₃ = .ok (options, c₄)) :
    ∃ s rest', rest = s ++ rest' ∧ c₄ = ⟨i + s.length, rest', r.stop⟩ ∧
      (rest' ≠ [] →
        Numbered Integer r.config note i (w, n, options.map (Setting.map note)) s) := by
  obtain ⟨_, rest, rfl, rfl, @⟨_, name, hname⟩⟩ := name_reads ename
  obtain ⟨eq, rest, rfl, rfl, rfl, heq⟩ := expect_ok eeq nofun
  obtain ⟨s, rest, rfl, rfl, hs⟩ := fieldNumber_reads en
  obtain ⟨t, rest, rfl, rfl, ht⟩ := bracketedSettings_reads note eo
  refine ⟨name :: eq :: (s ++ t), rest, by simp, by simp; omega, fun hl ↦ ?_⟩
  exact .mk hname heq (hs (by simp [hl])) ht

theorem fieldFrom_reads :
    r.ReadsBehind (fun s ↦ startsType s) fieldFrom
      (.under (Field.map note) (Field.Derives r.config note)) := by
  intro i first rest x c' hfirst h
  cases hl : labelOf? first with
  | some label =>
    simp only [run, fieldFrom, hl, Option.isSome_some, if_true, bind_eq_ok_iff,
      extentFrom_eq_ok_iff, pure_eq_ok_iff] at h
    obtain ⟨type, c₁, etype, w, c₂, ename, _, c₃, eeq, n, c₄, en, options, c₅, eo, _, c₆, esemi,
      _, _, ⟨rfl, rfl⟩, rfl, rfl⟩ := h
    obtain ⟨s, rest, rfl, rfl, hs⟩ := typeRef_reads note etype
    obtain ⟨t, rest, rfl, rfl, ht⟩ := numbered_ok note ename eeq en eo
    obtain ⟨semi, rest, rfl, rfl, rfl, hsemi⟩ := expect_ok esemi nofun
    have hlen : i + 1 + s.length + t.length + 1 = i + (first :: (s ++ (t ++ [semi]))).length := by
      simp
      omega
    refine ⟨s ++ (t ++ [semi]), rest, by simp, by simp; omega, ?_⟩
    rw [hlen]
    exact .labelled hl (hs (by simp)) (ht (List.cons_ne_nil _ _)) hsemi
  | none =>
    simp only [run, fieldFrom, hl, Option.isSome_none, Bool.false_eq_true, if_false, bind_eq_ok_iff,
      extentFrom_eq_ok_iff, pure_eq_ok_iff] at h
    obtain ⟨type, c₁, etype, w, c₂, ename, _, c₃, eeq, n, c₄, en, options, c₅, eo, _, c₆, esemi,
      _, _, ⟨rfl, rfl⟩, rfl, rfl⟩ := h
    obtain ⟨s, rest, rfl, rfl, hs⟩ := typeRefFrom_ok note hfirst etype
    obtain ⟨t, rest, rfl, rfl, ht⟩ := numbered_ok note ename eeq en eo
    obtain ⟨semi, rest, rfl, rfl, rfl, hsemi⟩ := expect_ok esemi nofun
    have hlen : i + 1 + s.length + t.length + 1 = i + (first :: (s ++ (t ++ [semi]))).length := by
      simp
      omega
    refine ⟨s ++ (t ++ [semi]), rest, by simp, by simp; omega, ?_⟩
    rw [hlen]
    exact .plain hl (hs (by simp)) (ht (List.cons_ne_nil _ _)) hsemi

theorem mapFieldFrom_reads :
    r.ReadsBehind (·.isWord "map") mapFieldFrom
      (.under (MapField.map note) (MapField.Derives Integer r.config note)) := by
  intro i word rest x c' hword h
  simp only [run, mapFieldFrom, bind_eq_ok_iff, extentFrom_eq_ok_iff, pure_eq_ok_iff] at h
  obtain ⟨_, c₁, eless, _, c₂, ekey, _, c₃, ecomma, type, c₄, etype, _, c₅, egreater, w, c₆, ename,
    _, c₇, eeq, n, c₈, en, options, c₉, eo, _, c₁₀, esemi, _, _, ⟨rfl, rfl⟩, rfl, rfl⟩ := h
  obtain ⟨less, rest, rfl, rfl, rfl, hless⟩ := expect_ok eless nofun
  obtain ⟨key, rest, rfl, rfl, rfl, hkey⟩ := expect_ok ekey nofun
  obtain ⟨comma, rest, rfl, rfl, rfl, hcomma⟩ := expect_ok ecomma nofun
  obtain ⟨s, rest, rfl, rfl, hs⟩ := typeRef_reads note etype
  obtain ⟨greater, rest, rfl, rfl, rfl, hgreater⟩ := expect_ok egreater nofun
  obtain ⟨t, rest, rfl, rfl, ht⟩ := numbered_ok note ename eeq en eo
  obtain ⟨semi, rest, rfl, rfl, rfl, hsemi⟩ := expect_ok esemi nofun
  have hlen : i + 1 + 1 + 1 + 1 + s.length + 1 + t.length + 1 =
      i + (word :: less :: key :: comma :: (s ++ greater :: (t ++ [semi]))).length := by
    simp
    omega
  refine ⟨less :: key :: comma :: (s ++ greater :: (t ++ [semi])),
    rest, by simp, by simp; omega, ?_⟩
  rw [hlen]
  exact .mk hword hless hkey hcomma (hs (List.cons_ne_nil _ _)) hgreater
    (ht (List.cons_ne_nil _ _)) hsemi

theorem enumValueFrom_reads :
    r.ReadsBehind (fun s ↦ s.isName) enumValueFrom
      (.under (Field.map note) (Field.DerivesValue note)) := by
  intro i name rest x c' hname h
  simp only [run, enumValueFrom, bind_eq_ok_iff, extentFrom_eq_ok_iff, pure_eq_ok_iff] at h
  obtain ⟨_, c₁, eeq, n, c₂, en, options, c₃, eo, _, c₄, esemi, _, _, ⟨rfl, rfl⟩, rfl, rfl⟩ := h
  obtain ⟨eq, rest, rfl, rfl, rfl, heq⟩ := expect_ok eeq nofun
  obtain ⟨s, rest, rfl, rfl, hs⟩ := integer_reads en
  obtain ⟨t, rest, rfl, rfl, ht⟩ := bracketedSettings_reads note eo
  obtain ⟨semi, rest, rfl, rfl, rfl, hsemi⟩ := expect_ok esemi nofun
  have hlen : i + 1 + 1 + s.length + t.length + 1 =
      i + (name :: eq :: (s ++ (t ++ [semi]))).length := by
    simp
    omega
  refine ⟨eq :: (s ++ (t ++ [semi])), rest, by simp, by simp; omega, ?_⟩
  rw [hlen]
  exact .mk hname heq (hs (by simp)) ht hsemi

/-! ## Statements of a message body -/

theorem extensionsFrom_reads :
    r.ReadsBehind (·.isWord "extensions") extensionsFrom
      (.under (Extensions.map note) (Extensions.Derives Integer note)) := by
  intro i word rest x c' hword h
  simp only [run, extensionsFrom, bind_eq_ok_iff, extentFrom_eq_ok_iff, pure_eq_ok_iff] at h
  obtain ⟨ranges, c₁, er, options, c₂, eo, _, c₃, esemi, _, _, ⟨rfl, rfl⟩, rfl, rfl⟩ := h
  obtain ⟨s, rest, rfl, rfl, hs⟩ := separated_reads range_reads er
  obtain ⟨t, rest, rfl, rfl, ht⟩ := bracketedSettings_reads note eo
  obtain ⟨semi, rest, rfl, rfl, rfl, hsemi⟩ := expect_ok esemi nofun
  have hlen : i + 1 + s.length + t.length + 1 = i + (word :: (s ++ (t ++ [semi]))).length := by
    simp
    omega
  refine ⟨s ++ (t ++ [semi]), rest, by simp, by simp; omega, ?_⟩
  rw [hlen]
  exact .mk hword (hs (by simp)) ht hsemi

theorem reservedItems_reads : r.Reads reservedItems (ReservedItems.Derives Integer) := by
  intro i rest x c' h
  simp only [run, reservedItems, bind_eq_ok_iff, current_eq_ok_iff] at h
  obtain ⟨_, _, ⟨rfl, rfl⟩, h⟩ := h
  split at h
  · obtain ⟨names, c₁, enames, hpure⟩ := bind_eq_ok_iff.mp h
    obtain ⟨rfl, rfl⟩ := pure_eq_ok_iff.mp hpure
    obtain ⟨s, rest, rfl, rfl, hs⟩ := separated_reads stringText_reads.reads enames
    exact ⟨s, rest, rfl, rfl, fun hl ↦ .names (hs hl)⟩
  · rename_i hstring
    obtain ⟨ranges, c₁, eranges, hpure⟩ := bind_eq_ok_iff.mp h
    obtain ⟨rfl, rfl⟩ := pure_eq_ok_iff.mp hpure
    obtain ⟨s, rest, rfl, rfl, hs⟩ := separated_reads range_reads eranges
    refine ⟨s, rest, rfl, rfl, fun hl ↦ .ranges (hs hl) fun first hfirst hk ↦ hstring ?_⟩
    rw [Cursor.current, headD_append_of_mem_head? hfirst]
    exact Symbol.is_iff.mpr hk

theorem reservedFrom_reads :
    r.ReadsBehind (·.isWord "reserved") reservedFrom
      (.under (Reserved.map note) (Reserved.Derives Integer note)) := by
  intro i word rest x c' hword h
  simp only [run, reservedFrom, bind_eq_ok_iff, extentFrom_eq_ok_iff, pure_eq_ok_iff] at h
  obtain ⟨items, c₁, eitems, _, c₂, esemi, _, _, ⟨rfl, rfl⟩, rfl, rfl⟩ := h
  obtain ⟨s, rest, rfl, rfl, hs⟩ := reservedItems_reads eitems
  obtain ⟨semi, rest, rfl, rfl, rfl, hsemi⟩ := expect_ok esemi nofun
  have hlen : i + 1 + s.length + 1 = i + (word :: (s ++ [semi])).length := by
    simp
    omega
  refine ⟨s ++ [semi], rest, by simp, by simp; omega, ?_⟩
  rw [hlen]
  exact .mk hword (hs (List.cons_ne_nil _ _)) hsemi

end Reader

end ProtoSchema

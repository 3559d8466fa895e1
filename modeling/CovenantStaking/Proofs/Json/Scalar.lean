import CovenantStaking.Json.Value
import Mathlib.Data.List.Basic
import Mathlib.Data.List.TakeWhile

/-!
# Numbers and texts in JSON

A natural number is written as a number and reads back, and so does a text, whatever has to be
escaped in it.
-/

namespace CovenantStaking.Json

/-! ## Natural numbers -/

theorem isDigit_toDigits (n : Nat) : (Nat.toDigits 10 n).all Char.isDigit := by
  rw [List.all_eq_true]
  intro c hc
  exact Nat.isDigit_of_mem_toDigits (by decide) (by decide) hc

theorem head?_toDigits_ne {n : Nat} (h : 0 < n) : (Nat.toDigits 10 n).head? ≠ some '0' := by
  induction n using Nat.strongRecOn with
  | ind n ih =>
      rcases Nat.lt_or_ge n 10 with hlt | hge
      · rw [Nat.toDigits_of_lt_base hlt, List.head?_cons, ne_eq, Option.some.injEq,
          Nat.digitChar_eq_zero]
        omega
      · rw [Nat.toDigits_of_base_le (by decide) hge,
          List.head?_append_of_ne_nil _ Nat.toDigits_ne_nil]
        exact ih (n / 10) (by omega) (by omega)

/-- A number of digits alone needs no more than that its first one is not zero. -/
theorem isNumber_cons_of_isDigit {digit : Char} {digits : List Char} (hne : digit ≠ '0')
    (h : (digit :: digits).all Char.isDigit) : isNumber (digit :: digits) := by
  rw [List.all_cons, Bool.and_eq_true] at h
  have hminus : digit ≠ '-' := by
    rintro rfl
    exact absurd h.1 (by decide)
  have hrest : digits.dropWhile Char.isDigit = [] := by
    rw [List.dropWhile_eq_nil_iff]
    exact List.all_eq_true.mp h.2
  simp [isNumber, isUnsigned, isFraction, isExponent, hminus, h.1, hrest]

theorem isNumber_toDigits (n : Nat) : isNumber (Nat.toDigits 10 n) := by
  rcases Nat.eq_zero_or_pos n with rfl | hpos
  · rfl
  · have hfirst := head?_toDigits_ne hpos
    have hdigits := isDigit_toDigits n
    cases h : Nat.toDigits 10 n with
    | nil => exact absurd h Nat.toDigits_ne_nil
    | cons digit digits =>
        rw [h] at hfirst hdigits
        exact isNumber_cons_of_isDigit (fun hzero => hfirst (congrArg some hzero)) hdigits

theorem Value.natural?_eq_some_iff {value : Value} {n bound : Nat} :
    value.natural? bound = some n ↔ ∃ literal, value = .number literal ∧
      literal.all Char.isDigit ∧ n = Nat.ofDigitChars 10 literal 0 ∧ n < bound := by
  cases value with
  | number literal =>
      simp only [natural?, Option.ite_none_right_eq_some, Option.some.injEq, number.injEq,
        exists_eq_left']
      constructor
      · rintro ⟨⟨hdigits, hlt⟩, rfl⟩
        exact ⟨hdigits, rfl, hlt⟩
      · rintro ⟨hdigits, rfl, hlt⟩
        exact ⟨⟨hdigits, hlt⟩, rfl⟩
  | null | bool | string | array | object => simp [natural?]

theorem Value.natural?_ofNat {n bound : Nat} (h : n < bound) :
    (ofNat n).natural? bound = some n :=
  natural?_eq_some_iff.mpr
    ⟨_, rfl, isDigit_toDigits n, Nat.ofDigitChars_ten_toDigits.symm, h⟩

/-! ## Texts -/

theorem hexDigit?_digitChar {d : Nat} (h : d < 16) : hexDigit? (Nat.digitChar d) = some d := by
  revert d
  decide

theorem codeUnit?_of_control {n : Nat} (h : n < 0x20) :
    codeUnit? '0' '0' (Nat.digitChar (n / 16)) (Nat.digitChar (n % 16)) = some n := by
  have hzero : hexDigit? '0' = some 0 := by decide
  simp only [codeUnit?, hzero, hexDigit?_digitChar (by omega : n / 16 < 16),
    hexDigit?_digitChar (by omega : n % 16 < 16), Option.bind_eq_bind, Option.bind_some,
    Option.pure_def, Option.some.injEq]
  omega

theorem stringParts?_of_plain {c : Char} (hcontrol : ¬c.toNat < 0x20) (hslash : c ≠ '\\')
    (rest : List Char) :
    stringParts? (c :: rest) = (stringParts? rest).map (.char c :: ·) := by
  rw [stringParts?.eq_def]
  split
  · simp_all
  · simp_all
  · simp_all
  · rename_i heq
    obtain ⟨rfl, rfl⟩ := List.cons.inj heq
    rw [if_neg (not_or.mpr ⟨hcontrol, hslash⟩)]
    exact bind_pure_comp (m := Option) _ _

theorem stringParts?_of_short {mark c : Char} (h : shortEscape? mark = some c) (rest : List Char) :
    stringParts? ('\\' :: mark :: rest) = (stringParts? rest).map (.char c :: ·) := by
  have hu : mark ≠ 'u' := by
    rintro rfl
    cases h
  rw [stringParts?, h]
  · exact bind_pure_comp (m := Option) _ _
  · exact fun _ _ _ _ _ heq => absurd heq hu

theorem stringParts?_of_control {c : Char} (h : c.toNat < 0x20) (rest : List Char) :
    stringParts? ('\\' :: 'u' :: '0' :: '0' :: Nat.digitChar (c.toNat / 16) ::
        Nat.digitChar (c.toNat % 16) :: rest) =
      (stringParts? rest).map (.unit c.toNat :: ·) := by
  rw [stringParts?, codeUnit?_of_control h]
  exact bind_pure_comp (m := Option) _ _

theorem joinParts?_char (c : Char) (parts : List StringPart) :
    joinParts? none (.char c :: parts) = (joinParts? none parts).map (c :: ·) :=
  bind_pure_comp (m := Option) _ _

theorem joinParts?_control {c : Char} (h : c.toNat < 0x20) (parts : List StringPart) :
    joinParts? none (.unit c.toNat :: parts) = (joinParts? none parts).map (c :: ·) := by
  rw [joinParts?, if_pos (.inl (by omega)), Char.ofNat_toNat]
  exact bind_pure_comp (m := Option) _ _

/-- The three ways to write a character in a string. -/
inductive Spelling (c : Char) : List Char → Prop
  | short {mark : Char} (h : shortEscape? mark = some c) : Spelling c ['\\', mark]
  | control (h : c.toNat < 0x20) :
      Spelling c ['\\', 'u', '0', '0', Nat.digitChar (c.toNat / 16), Nat.digitChar (c.toNat % 16)]
  | plain (hcontrol : ¬c.toNat < 0x20) (hquote : c ≠ '"') (hslash : c ≠ '\\') : Spelling c [c]

theorem spelling_escaped (c : Char) : Spelling c (escaped c) := by
  unfold escaped
  split_ifs with hquote hslash hb hf hn hr ht hcontrol
  · exact .short (by rw [hquote]; rfl)
  · exact .short (by rw [hslash]; rfl)
  · exact .short (hb ▸ rfl)
  · exact .short (hf ▸ rfl)
  · exact .short (hn ▸ rfl)
  · exact .short (hr ▸ rfl)
  · exact .short (ht ▸ rfl)
  · exact .control hcontrol
  · exact .plain hcontrol hquote hslash

/-- A character is written as one part of a string, and the part spells the character. -/
theorem Spelling.exists_part {c : Char} {raw : List Char} (h : Spelling c raw) :
    ∃ part : StringPart,
      (∀ rest, stringParts? (raw ++ rest) = (stringParts? rest).map (part :: ·)) ∧
        ∀ parts, joinParts? none (part :: parts) = (joinParts? none parts).map (c :: ·) := by
  cases h with
  | short h => exact ⟨.char c, stringParts?_of_short h, joinParts?_char c⟩
  | control h => exact ⟨.unit c.toNat, stringParts?_of_control h, joinParts?_control h⟩
  | plain hcontrol _ hslash =>
      exact ⟨.char c, stringParts?_of_plain hcontrol hslash, joinParts?_char c⟩

theorem text?_flatMap_escaped (text : List Char) : text? (text.flatMap escaped) = some text := by
  suffices h : ∃ parts, stringParts? (text.flatMap escaped) = some parts ∧
      joinParts? none parts = some text by
    obtain ⟨parts, hparts, htext⟩ := h
    rw [text?, hparts]
    exact htext
  induction text with
  | nil => exact ⟨[], rfl, rfl⟩
  | cons c text ih =>
      obtain ⟨parts, hparts, htext⟩ := ih
      obtain ⟨part, hread, hspell⟩ := (spelling_escaped c).exists_part
      refine ⟨part :: parts, ?_, ?_⟩
      · rw [List.flatMap_cons, hread, hparts, Option.map_some]
      · rw [hspell, htext, Option.map_some]

end CovenantStaking.Json

import CovenantStaking.Message.ToSpend

/-!
# The length of a message's text

A text holds five bits a character, and no text is longer than the alphabet's code can check. So
every message that is short enough has a text, and no other one has.
-/

namespace CovenantStaking

namespace Bech32

theorem bits_length (b : UInt8) : (bits b).length = 8 := by
  simp [bits]

/-- The last group may be short of bits, but not of all of them. -/
theorem regroup_length (bits : List Bool) : (regroup bits).length = (bits.length + 4) / 5 := by
  fun_induction regroup bits with
  | case1 a b c d e rest ih =>
      simp only [List.length_cons, ih]
      omega
  | case2 => rfl
  | case3 last hshort hne =>
      have hpos : 0 < last.length := List.length_pos_iff.mpr hne
      have hlt : last.length < 5 := by
        rcases last with _ | ⟨a, _ | ⟨b, _ | ⟨c, _ | ⟨d, _ | ⟨e, rest⟩⟩⟩⟩⟩
        case cons.cons.cons.cons.cons => exact (hshort a b c d e rest rfl).elim
        all_goals simp
      simp only [List.length_cons, List.length_nil]
      omega

theorem flatMap_bits_length (data : Bytes) : (data.flatMap bits).length = 8 * data.length := by
  induction data with
  | nil => rfl
  | cons b data ih =>
      rw [List.flatMap_cons, List.length_append, bits_length, ih, List.length_cons]
      omega

theorem groups_length (data : Bytes) : (groups data).length = (8 * data.length + 4) / 5 := by
  rw [groups, regroup_length, flatMap_bits_length]

theorem encode_length (readable : List Char) (data : Bytes) :
    (encode readable data).length = readable.length + (8 * data.length + 4) / 5 + 7 := by
  simp only [encode, checksum, List.length_append, List.length_cons, List.length_map,
    List.length_nil, groups_length]
  omega

end Bech32

theorem Message.text_eq_ok_iff {message : Bytes} {text : List Char} :
    Message.text message = .ok text ↔
      text = Bech32.encode readablePart message ∧ text.length ≤ Bech32.maxLength := by
  unfold Message.text Bech32.encode?
  by_cases h : (Bech32.encode readablePart message).length ≤ Bech32.maxLength
  · simp only [h, ↓reduceIte, Except.ok.injEq]
    constructor
    · rintro rfl
      exact ⟨rfl, h⟩
    · rintro ⟨rfl, -⟩
      rfl
  · simp only [h, ↓reduceIte, reduceCtorEq, false_iff]
    rintro ⟨rfl, hlength⟩
    exact h hlength

/-- A message of up to 633 bytes has a text, and a longer one has none. -/
theorem Message.exists_text_iff {message : Bytes} :
    (∃ text, Message.text message = .ok text) ↔ message.length ≤ 633 := by
  have hlength := Bech32.encode_length readablePart message
  simp only [readablePart, List.length_cons, List.length_nil] at hlength
  simp only [text_eq_ok_iff, exists_eq_left, Bech32.maxLength, readablePart, hlength]
  omega

end CovenantStaking

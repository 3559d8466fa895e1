import CovenantStaking.Proofs.Outcome
import CovenantStaking.Proofs.Tapscript.Number

/-!
# Numbers that a script pushes

A number is pushed in the fewest bytes that stand for it, and is read back whatever comes after it.
The reader takes longer forms too: what it takes is what is written exactly when no byte could have
been left out.
-/

namespace CovenantStaking.Tapscript

variable {script push data : Bytes} {value : Int} {used : Nat}

/-! ## Reading -/

/-- The pushes that are read as numbers: an opcode, or a length of one to nine and as many bytes. -/
inductive NumberPush : Bytes → Int → Prop
  | zero : NumberPush [0x00] 0
  | small {code : UInt8} (low : 0x51 ≤ code.toNat) (high : code.toNat ≤ 0x5f) :
      NumberPush [code] ((code.toNat - 0x50 : Nat) : Int)
  | data {data : Bytes} (low : 1 ≤ data.length) (high : data.length ≤ 9)
      (word : IsWord (ofSignedBytes data)) :
      NumberPush (UInt8.ofNat data.length :: data) (ofSignedBytes data)

theorem numberPush_take {code : UInt8} {rest : Bytes} (low : 1 ≤ code.toNat)
    (high : code.toNat ≤ 9) (hfits : code.toNat ≤ rest.length)
    (hword : IsWord (ofSignedBytes (rest.take code.toNat))) :
    NumberPush (code :: rest.take code.toNat) (ofSignedBytes (rest.take code.toNat)) := by
  have hlength : (rest.take code.toNat).length = code.toNat := List.length_take_of_le hfits
  have hpush := NumberPush.data (by omega) (by omega) hword
  rwa [hlength, UInt8.ofNat_toNat] at hpush

theorem exists_numberPush_of_readNumber (h : readNumber script = .ok (value, used)) :
    ∃ push rest, script = push ++ rest ∧ used = push.length ∧ NumberPush push value := by
  unfold readNumber at h
  split at h
  · cases h
  · rename_i code rest
    dsimp only at h
    -- zero first, then the opcodes, then data; of data, whether it is there and fits a word
    split at h
    · rename_i hzero
      cases h
      obtain rfl : code = 0x00 := UInt8.toNat_inj.mp hzero
      exact ⟨[0x00], rest, rfl, rfl, .zero⟩
    · split at h
      · rename_i hsmall
        cases h
        exact ⟨[code], rest, rfl, rfl, .small hsmall.1 hsmall.2⟩
      · split at h
        · split at h
          · cases h
          · rename_i hfits
            split at h
            · rename_i hword
              cases h
              refine ⟨code :: rest.take code.toNat, rest.drop code.toNat, ?_, ?_,
                numberPush_take (by omega) (by omega) (by omega) hword⟩
              · rw [List.cons_append, List.take_append_drop]
              · rw [List.length_cons, List.length_take_of_le (by omega), Nat.add_comm]
            · cases h
        · cases h

theorem NumberPush.read (h : NumberPush push value) (rest : Bytes) :
    readNumber (push ++ rest) = .ok (value, push.length) := by
  cases h with
  | zero => rfl
  | @small code low high =>
      simp only [readNumber, List.cons_append, List.nil_append]
      rw [if_neg (by omega), if_pos ⟨low, high⟩]
      rfl
  | @data data low high word =>
      have hcode : (UInt8.ofNat data.length).toNat = data.length := by
        rw [UInt8.toNat_ofNat']
        omega
      simp only [readNumber, List.cons_append, hcode, List.take_left', word, ↓reduceIte,
        List.length_append, List.length_cons, Nat.add_comm]
      rw [if_neg (by omega), if_neg (by omega), if_pos high, if_neg (by omega)]

theorem readNumber_eq_ok_iff :
    readNumber script = .ok (value, used) ↔
      ∃ push rest, script = push ++ rest ∧ used = push.length ∧ NumberPush push value := by
  constructor
  · exact exists_numberPush_of_readNumber
  · rintro ⟨push, rest, rfl, rfl, hpush⟩
    exact hpush.read rest

/-! ## Writing -/

theorem pushNumber_code {code : UInt8} (low : 0x51 ≤ code.toNat) (high : code.toNat ≤ 0x5f) :
    pushNumber ((code.toNat - 0x50 : Nat) : Int) = [code] := by
  rw [pushNumber, if_neg (by omega), if_pos (by omega), Int.toNat_natCast, List.singleton_inj]
  apply UInt8.toNat_inj.mp
  rw [UInt8.toNat_add, UInt8.toNat_ofNat']
  simp only [UInt8.reduceToNat]
  omega

/-- The numbers with an opcode of their own. -/
theorem exists_code_of_small (hpos : 0 < value) (hle : value ≤ 15) :
    ∃ code : UInt8, 0x51 ≤ code.toNat ∧ code.toNat ≤ 0x5f ∧
      value = ((code.toNat - 0x50 : Nat) : Int) := by
  have hcode : (UInt8.ofNat (0x50 + value.toNat)).toNat = 0x50 + value.toNat := by
    rw [UInt8.toNat_ofNat']
    omega
  refine ⟨UInt8.ofNat (0x50 + value.toNat), ?_⟩
  rw [hcode]
  omega

theorem pushNumber_length_of_small (hpos : 0 ≤ value) (hle : value ≤ 15) :
    (pushNumber value).length = 1 := by
  unfold pushNumber
  split
  · rfl
  · rw [if_pos (by omega)]
    rfl

theorem pushNumber_of_wide (h : value < 0 ∨ 15 < value) :
    pushNumber value =
      UInt8.ofNat (numberWidth value.natAbs) :: signedBytes (numberWidth value.natAbs) value := by
  rw [pushNumber_eq, if_neg (by omega), if_neg (by omega)]

theorem numberWidth_le_of_isWord (h : IsWord value) : numberWidth value.natAbs ≤ 9 := by
  rw [IsWord] at h
  rw [numberWidth_le_iff (by decide)]
  omega

theorem numberPush_pushNumber (h : IsWord value) : NumberPush (pushNumber value) value := by
  by_cases hwide : value < 0 ∨ 15 < value
  · have hvalue := ofSignedBytes_signedBytes (numberWidth_pos _) (lt_numberWidth value.natAbs)
    have hlength := signedBytes_length (numberWidth value.natAbs) value
    have hpush := NumberPush.data (hlength.symm ▸ numberWidth_pos value.natAbs)
      (hlength.symm ▸ numberWidth_le_of_isWord h) (hvalue.symm ▸ h)
    rwa [hvalue, hlength, ← pushNumber_of_wide hwide] at hpush
  · by_cases hzero : value = 0
    · subst hzero
      exact .zero
    · obtain ⟨code, low, high, rfl⟩ := exists_code_of_small (by omega : 0 < value) (by omega)
      rw [pushNumber_code low high]
      exact .small low high

/-- A number is read back from what is written for it, whatever follows. -/
theorem readNumber_pushNumber_append (h : IsWord value) (rest : Bytes) :
    readNumber (pushNumber value ++ rest) = .ok (value, (pushNumber value).length) :=
  (numberPush_pushNumber h).read rest

/-- The magnitude of the least word does not fit a word with its sign: its push has nine bytes of
data. -/
theorem readNumber_pushNumber_least :
    IsWord (-0x8000000000000000) ∧ (pushNumber (-0x8000000000000000)).length = 10 ∧
      readNumber (pushNumber (-0x8000000000000000) ++ [0x80]) = .ok (-0x8000000000000000, 10) := by
  have hword : IsWord (-0x8000000000000000) := by decide
  have hlength : (pushNumber (-0x8000000000000000)).length = 10 := by
    rw [pushNumber_of_wide (by decide)]
    rfl
  have hread := readNumber_pushNumber_append hword [0x80]
  rw [hlength] at hread
  exact ⟨hword, hlength, hread⟩

/-! ## Shortest forms -/

/-- A number without an opcode of its own is pushed as one to nine bytes that stand for it. No fewer
bytes do, and no others of as many. -/
theorem pushNumber_shortest (hword : IsWord value) (hwide : value < 0 ∨ 15 < value) :
    ∃ data, pushNumber value = UInt8.ofNat data.length :: data ∧
      1 ≤ data.length ∧ data.length ≤ 9 ∧ ofSignedBytes data = value ∧
      ∀ other, ofSignedBytes other = value →
        data.length ≤ other.length ∧ (other.length = data.length → other = data) := by
  have hlength := signedBytes_length (numberWidth value.natAbs) value
  refine ⟨signedBytes (numberWidth value.natAbs) value, ?_⟩
  rw [hlength]
  refine ⟨pushNumber_of_wide hwide, numberWidth_pos _, numberWidth_le_of_isWord hword,
    ofSignedBytes_signedBytes (numberWidth_pos _) (lt_numberWidth _), ?_⟩
  rintro other rfl
  have hne : other ≠ [] := by
    rintro rfl
    exact absurd hwide (by decide)
  refine ⟨numberWidth_ofSignedBytes_le hne, fun hother => ?_⟩
  rw [← hother]
  exact (signedBytes_ofSignedBytes (by omega)).symm

theorem pushNumber_shortest_least :
    IsWord (-0x8000000000000000) ∧ (-0x8000000000000000 : Int) < 0 ∧
      ∃ data, pushNumber (-0x8000000000000000) = UInt8.ofNat data.length :: data ∧
        1 ≤ data.length ∧ data.length ≤ 9 ∧ ofSignedBytes data = -0x8000000000000000 ∧
        ∀ other, ofSignedBytes other = -0x8000000000000000 →
          data.length ≤ other.length ∧ (other.length = data.length → other = data) :=
  ⟨by decide, by decide, pushNumber_shortest (by decide) (.inl (by decide))⟩

theorem NumberPush.eq_pushNumber_iff (h : NumberPush push value) :
    push = pushNumber value ↔
      push.length = 1 ∨ (value < 0 ∨ 15 < value) ∧ Tight push.tail := by
  cases h with
  | zero => exact ⟨fun _ => .inl rfl, fun _ => rfl⟩
  | small low high => exact ⟨fun _ => .inl rfl, fun _ => (pushNumber_code low high).symm⟩
  | @data data low high word =>
      -- a push of data is longer than an opcode: only its own width is left to compare
      have hlength : (UInt8.ofNat data.length :: data).length ≠ 1 := by
        rw [List.length_cons]
        omega
      by_cases hwide : ofSignedBytes data < 0 ∨ 15 < ofSignedBytes data
      · have hne : ofSignedBytes data ≠ 0 := by omega
        simp only [hlength, hwide, false_or, true_and, List.tail_cons, tight_iff hne,
          pushNumber_of_wide hwide]
        constructor
        · intro hpush
          have := congrArg List.length (List.cons.inj hpush).2
          rw [signedBytes_length] at this
          exact this.symm
        · intro hwidth
          rw [hwidth, signedBytes_ofSignedBytes hne]
      · simp only [hlength, hwide, false_and, or_self, iff_false]
        intro hpush
        rw [hpush] at hlength
        exact hlength (pushNumber_length_of_small (by omega) (by omega))

/-- What is read as a number is what is written for it exactly when it is an opcode, or the bytes of
a number that has no opcode and none of them could be left out. -/
theorem take_eq_pushNumber_iff (h : readNumber script = .ok (value, used)) :
    script.take used = pushNumber value ↔
      used = 1 ∨ (value < 0 ∨ 15 < value) ∧ Tight (script.take used).tail := by
  obtain ⟨push, rest, rfl, rfl, hpush⟩ := readNumber_eq_ok_iff.mp h
  rw [List.take_left]
  exact hpush.eq_pushNumber_iff

/-- The second byte of data only makes room for the sign. -/
theorem take_eq_pushNumber_128 :
    readNumber [0x02, 0x80, 0x00, 0x51] = .ok (128, 3) ∧ Tight [0x80, 0x00] ∧
      [0x02, 0x80, 0x00, 0x51].take 3 = pushNumber 128 := by
  have h : readNumber [0x02, 0x80, 0x00, 0x51] = .ok (128, 3) := rfl
  have htight : Tight [0x80, 0x00] := by decide
  exact ⟨h, htight, (take_eq_pushNumber_iff h).mpr (.inr ⟨.inr (by decide), htight⟩)⟩

/-- Five, pushed as data, is read as a number and yet is not what is written for five. -/
theorem readNumber_of_five_as_data :
    readNumber [0x01, 0x05] = .ok (5, 2) ∧ [0x01, 0x05].take 2 ≠ pushNumber 5 :=
  ⟨rfl, by decide⟩

end CovenantStaking.Tapscript

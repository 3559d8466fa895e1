import CovenantStaking.Proofs.Blob.Grammar

/-!
# Values that a tag does not allow

Reading a value fails for its length, for too many keys, or for an unknown action, and for nothing
else. In particular a path whose length is allowed can be made.
-/

namespace CovenantStaking

/-! ## Refusals -/

/-- The lengths that a value can have; the number of keys in a list is limited apart from it. -/
def Tag.AllowsLength : Tag → Nat → Prop
  | action, n | providerCount, n | covenantCount, n | covenantQuorum, n => n = 1
  | providers, n | covenantKeys, n => n % 32 = 0
  | stakerKey, n | txid, n => n = 32
  | timelock, n | slashingFeeLimit, n | unbondingFeeLimit, n => n = 8
  | message, n => n ≤ 40
  | messageKey, n => n = 32 ∨ n = 33
  | burnAddress, n => 1 ≤ n ∧ n ≤ 32
  | derivationPath, n => n % 4 = 0 ∧ 1 ≤ n / 4 ∧ n / 4 ≤ 10

def Tag.IsKeyList (tag : Tag) : Prop :=
  tag = providers ∨ tag = covenantKeys

instance (tag : Tag) : Decidable tag.IsKeyList :=
  inferInstanceAs (Decidable (_ ∨ _))

/-- What is wrong with a value under a tag. -/
inductive Tag.Refuses (tag : Tag) (value : Bytes) : Failure → Prop
  | length (h : ¬tag.AllowsLength value.length) :
      Refuses tag value (.malformed (.invalidLength tag.code value.length))
  | keys (hlist : tag.IsKeyList) (hlength : tag.AllowsLength value.length)
      (h : 16 < value.length / 32) :
      Refuses tag value (.malformed (.tooManyKeys tag.code (value.length / 32) 16))
  | action {code : UInt8} (htag : tag = .action) (hvalue : value = [code])
      (h : ¬(1 ≤ code.toNat ∧ code.toNat ≤ 7)) :
      Refuses tag value (.unsupported (.actionCode code))

/-- What is wrong with a complete record. -/
inductive Record.Refused (r : Record) : Failure → Prop
  | unknownTag (h : ∀ tag : Tag, tag.code ≠ r.tag) : Refused r (.malformed (.unknownTag r.tag))
  | value {tag : Tag} {cause : Failure} (htag : tag.code = r.tag) (h : tag.Refuses r.value cause) :
      Refused r cause

variable {tag : Tag} {value : Bytes} {cause : Failure}

theorem Tag.refuses_iff_of_length (haction : tag ≠ .action) (hlist : ¬tag.IsKeyList) :
    tag.Refuses value cause ↔
      ¬tag.AllowsLength value.length ∧ Entry.wrongLength tag value = cause := by
  constructor
  · intro h
    cases h with
    | length h => exact ⟨h, rfl⟩
    | keys hkeys => exact absurd hkeys hlist
    | action htag => exact absurd htag haction
  · rintro ⟨h, rfl⟩
    exact .length h

/-! ## Readers -/

namespace Entry

theorem readFixed_eq_error_iff {n : Nat} :
    readFixed n tag value = .error cause ↔ value.length ≠ n ∧ wrongLength tag value = cause := by
  rw [← Octets.ofBytes?_eq_none_iff, readFixed]
  split
  · rename_i h
    simp [h]
  · rename_i h
    simp [h]

theorem readByte_eq_error_iff :
    readByte tag value = .error cause ↔ value.length ≠ 1 ∧ wrongLength tag value = cause := by
  unfold readByte
  split
  · simp
  · rename_i hne
    have hlength : value.length ≠ 1 := by
      intro h
      obtain ⟨b, rfl⟩ := List.length_eq_one_iff.mp h
      exact hne b rfl
    simp [hlength]

theorem readWord_eq_error_iff :
    readWord tag value = .error cause ↔ value.length ≠ 8 ∧ wrongLength tag value = cause := by
  simp [readWord, readFixed_eq_error_iff]

theorem readText_eq_error_iff {least most : Nat} :
    readText least most tag value = .error cause ↔
      ¬(least ≤ value.length ∧ value.length ≤ most) ∧ wrongLength tag value = cause := by
  simp only [readText, bind_eq_error_iff, ensure_eq_error_iff, pure_ne_error, and_false,
    exists_false, or_false]

theorem readMessageKey_eq_error_iff :
    readMessageKey tag value = .error cause ↔
      ¬(value.length = 32 ∨ value.length = 33) ∧ wrongLength tag value = cause := by
  rw [not_or, ← Ne, ← Ne, ← Octets.ofBytes?_eq_none_iff, ← Octets.ofBytes?_eq_none_iff,
    readMessageKey]
  split
  · rename_i h
    simp [h]
  · rename_i h
    simp [h]
  · rename_i h h'
    simp [h, h']

/-- Whatever has an allowed length can be made into a path. -/
theorem readPath_eq_error_iff :
    readPath tag value = .error cause ↔
      ¬Tag.derivationPath.AllowsLength value.length ∧ wrongLength tag value = cause := by
  have hlength : (value ≠ [] ∧ value.length % 4 = 0 ∧ value.length / 4 ≤ KeyPath.maxDepth) ↔
      Tag.derivationPath.AllowsLength value.length := by
    rw [← List.length_pos_iff, Tag.AllowsLength, KeyPath.maxDepth]
    omega
  simp only [readPath, bind_eq_error_iff, ensure_eq_error_iff, ensure_eq_ok_iff, exists_const,
    hlength, or_iff_left_iff_imp]
  rintro ⟨hallowed, hpath⟩
  obtain ⟨path, hpacked⟩ := exists_packed_iff.mpr hallowed
  rw [KeyPath.ofBytes_eq_ok_iff.mpr hpacked] at hpath
  cases hpath

theorem readKeys_eq_error_iff (hlist : tag.IsKeyList) :
    readKeys tag value = .error cause ↔ tag.Refuses value cause := by
  have hlength : tag.AllowsLength value.length ↔ value.length % 32 = 0 := by
    rcases hlist with rfl | rfl <;> exact Iff.rfl
  simp only [readKeys, bind_eq_error_iff, ensure_eq_error_iff, ensure_eq_ok_iff, pure_ne_error,
    and_false, exists_false, or_false, exists_const, ← hlength]
  constructor
  · rintro (⟨h, rfl⟩ | ⟨hallowed, h, rfl⟩)
    · exact .length h
    · exact .keys hlist hallowed (Nat.lt_of_not_le h)
  · intro h
    cases h with
    | length h => exact .inl ⟨h, rfl⟩
    | keys _ hallowed h => exact .inr ⟨hallowed, Nat.not_le_of_lt h, rfl⟩
    | action htag => rcases hlist with rfl | rfl <;> cases htag

theorem readAction_eq_error_iff :
    readAction .action value = .error cause ↔ Tag.action.Refuses value cause := by
  simp only [readAction, bind_eq_error_iff, readByte_eq_error_iff, readByte_eq_ok_iff]
  constructor
  · rintro (⟨h, rfl⟩ | ⟨code, rfl, h⟩)
    · exact .length h
    · split at h
      · cases h
      · rename_i hnone
        cases h
        refine .action rfl rfl fun hcode => ?_
        obtain ⟨a, rfl⟩ := Action.exists_code_iff.mpr hcode
        rw [Action.ofCode?_code] at hnone
        cases hnone
  · intro h
    cases h with
    | length h => exact .inl ⟨h, rfl⟩
    | keys hlist => rcases hlist with h | h <;> cases h
    | @action code _ hvalue h =>
        subst hvalue
        refine .inr ⟨code, rfl, ?_⟩
        split
        · rename_i a ha
          exact absurd (Action.exists_code_iff.mp ⟨a, Action.code_of_ofCode? ha⟩) h
        · rfl

/-! ## Records -/

theorem read_eq_error_iff : read tag value = .error cause ↔ tag.Refuses value cause := by
  cases tag with
  | action => simp only [read, map_eq_error_iff, readAction_eq_error_iff]
  | providers | covenantKeys =>
      simp only [read, map_eq_error_iff]
      exact readKeys_eq_error_iff (by decide)
  | _ =>
      rw [Tag.refuses_iff_of_length (by decide) (by decide)]
      simp [read, readByte_eq_error_iff, readFixed_eq_error_iff, readWord_eq_error_iff,
        readText_eq_error_iff, readMessageKey_eq_error_iff, readPath_eq_error_iff,
        Tag.AllowsLength, maxMessageLength, maxBurnAddressLength]

theorem ofRecord_eq_error_iff {r : Record} : ofRecord r = .error cause ↔ r.Refused cause := by
  unfold ofRecord
  split
  · rename_i tag htag
    have hcode := Tag.code_of_ofCode? htag
    rw [read_eq_error_iff]
    constructor
    · exact .value hcode
    · intro h
      cases h with
      | unknownTag h => exact absurd hcode (h tag)
      | value hcode' h => rwa [Tag.code_inj (hcode.trans hcode'.symm)]
  · rename_i hnone
    have hunknown (tag : Tag) : tag.code ≠ r.tag := by
      intro hcode
      rw [← hcode, Tag.ofCode?_code] at hnone
      cases hnone
    constructor
    · rintro ⟨⟩
      exact .unknownTag hunknown
    · intro h
      cases h with
      | unknownTag => rfl
      | value hcode => exact absurd hcode (hunknown _)

end Entry

end CovenantStaking

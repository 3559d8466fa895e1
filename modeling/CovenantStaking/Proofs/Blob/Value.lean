import CovenantStaking.Blob.Entry
import CovenantStaking.Proofs.KeyPath.Bytes
import CovenantStaking.Proofs.Outcome

/-!
# Values of entries

Reading a value under a tag gives an entry exactly when the value is the entry's written form and
the entry is one that a blob may hold.
-/

namespace CovenantStaking

namespace Entry

/-! ## Readers -/

variable {tag : Tag} {value : Bytes}

theorem readFixed_eq_ok_iff {n : Nat} {octets : Octets n} :
    readFixed n tag value = .ok octets ↔ octets.bytes = value := by
  rw [← Octets.ofBytes?_eq_some_iff, readFixed]
  split
  · rename_i h
    rw [h, Except.ok.injEq, Option.some.injEq]
  · rename_i h
    simp [h]

theorem readByte_eq_ok_iff {b : UInt8} : readByte tag value = .ok b ↔ [b] = value := by
  unfold readByte
  split
  · rw [Except.ok.injEq, List.singleton_inj, eq_comm]
  · rename_i hne
    simp only [reduceCtorEq, false_iff]
    rintro rfl
    exact hne b rfl

theorem readWord_eq_ok_iff {n : UInt64} : readWord tag value = .ok n ↔ wordValue n = value := by
  simp only [readWord, bind_eq_ok_iff, readFixed_eq_ok_iff, pure_eq_ok_iff]
  constructor
  · rintro ⟨octets, rfl, rfl⟩
    have hlt : octets.toNat < 256 ^ 8 := by simpa [Octets.toNat] using ofBeBytes_lt octets.bytes
    have hbytes := beBytes_ofBeBytes octets.bytes
    rw [octets.length_eq] at hbytes
    have hword : (UInt64.ofNat octets.toNat).toNat = octets.toNat := by
      rw [UInt64.toNat_ofNat']
      omega
    rw [wordValue, hword]
    exact hbytes
  · rintro rfl
    refine ⟨.ofNat 8 n.toNat, rfl, ?_⟩
    have hread : ofBeBytes (beBytes 8 n.toNat) = n.toNat := ofBeBytes_beBytes n.toNat_lt
    rw [Octets.toNat, Octets.ofNat, hread, UInt64.ofNat_toNat]

theorem readKeys_eq_ok_iff {keys : List XOnlyKey} :
    readKeys tag value = .ok keys ↔ keys.length ≤ maxKeys ∧ keysValue keys = value := by
  have hbytes (octets : List (Octets 32)) :
      keysValue (octets.map XOnlyKey.mk) = octets.flatMap Octets.bytes := by
    rw [keysValue, List.flatMap_map]
  simp only [readKeys, bind_eq_ok_iff, ensure_eq_ok_iff, pure_eq_ok_iff, exists_const]
  constructor
  · rintro ⟨hmod, hcount, rfl⟩
    obtain ⟨hflat, hlength⟩ := Octets.flatMap_bytes_pieces
      (by omega : value.length = 32 * (value.length / 32))
    exact ⟨by rwa [List.length_map, hlength], by rw [hbytes, hflat]⟩
  · rintro ⟨hcount, rfl⟩
    obtain ⟨octets, rfl⟩ : ∃ octets : List (Octets 32), octets.map XOnlyKey.mk = keys :=
      ⟨keys.map XOnlyKey.toOctets, by rw [List.map_map]; exact List.map_id keys⟩
    rw [List.length_map] at hcount
    have hlength := Octets.flatMap_bytes_length octets
    rw [hbytes, hlength, Nat.mul_div_cancel_left _ (by decide), Octets.pieces_flatMap_bytes]
    exact ⟨Nat.mul_mod_right _ _, hcount, rfl⟩

theorem readAction_eq_ok_iff {action : Action} :
    readAction tag value = .ok action ↔ [action.code] = value := by
  simp only [readAction, bind_eq_ok_iff, readByte_eq_ok_iff]
  constructor
  · rintro ⟨code, rfl, h⟩
    split at h
    · rename_i hcode
      cases h
      rw [Action.code_of_ofCode? hcode]
    · cases h
  · rintro rfl
    exact ⟨action.code, rfl, by rw [Action.ofCode?_code]; rfl⟩

theorem readMessageKey_eq_ok_iff {key : MessageKey} :
    readMessageKey tag value = .ok key ↔ messageKeyValue key = value := by
  constructor
  · intro h
    unfold readMessageKey at h
    split at h
    · rename_i octets _ hshort
      cases h
      exact Octets.ofBytes?_eq_some_iff.mp hshort
    · rename_i octets _ hlong
      cases h
      exact Octets.ofBytes?_eq_some_iff.mp hlong
    · cases h
  · rintro rfl
    cases key with
    | xOnly key => simp only [readMessageKey, messageKeyValue, Octets.ofBytes?_bytes]
    | compressed key =>
        have hlong : Octets.ofBytes? 32 key.bytes = none := by
          rw [Octets.ofBytes?_eq_none_iff, key.length_eq]
          decide
        simp only [readMessageKey, messageKeyValue, hlong, Octets.ofBytes?_bytes]

theorem readPath_eq_ok_iff {path : KeyPath} :
    readPath tag value = .ok path ↔ path.Packed ∧ path.bytes = value := by
  simp only [readPath, bind_eq_ok_iff, ensure_eq_ok_iff, exists_const, KeyPath.ofBytes_eq_ok_iff,
    and_iff_right_iff_imp]
  rintro ⟨⟨words, hdepth, hne, rfl⟩, rfl⟩
  have hlength := wordBytes_length words
  have hpos : 0 < words.length := List.length_pos_iff.mpr hne
  rw [KeyPath.bytes_ofShort, hlength]
  refine ⟨?_, by omega, by omega⟩
  rw [← List.length_pos_iff]
  omega

theorem readText_eq_ok_iff {least most : Nat} {text : Bytes} :
    readText least most tag value = .ok text ↔
      (least ≤ text.length ∧ text.length ≤ most) ∧ text = value := by
  simp only [readText, bind_eq_ok_iff, ensure_eq_ok_iff, exists_const, pure_eq_ok_iff]
  constructor
  · rintro ⟨hlength, rfl⟩
    exact ⟨hlength, rfl⟩
  · rintro ⟨hlength, rfl⟩
    exact ⟨hlength, rfl⟩

/-! ## Which values are written forms -/

theorem keysValue_length (keys : List XOnlyKey) : (keysValue keys).length = 32 * keys.length := by
  have hlength := Octets.flatMap_bytes_length (keys.map XOnlyKey.toOctets)
  rwa [List.flatMap_map, List.length_map] at hlength

theorem exists_keysValue_iff :
    (∃ keys, keys.length ≤ maxKeys ∧ keysValue keys = value) ↔
      value.length % 32 = 0 ∧ value.length / 32 ≤ maxKeys := by
  constructor
  · rintro ⟨keys, hcount, rfl⟩
    rw [keysValue_length, Nat.mul_mod_right, Nat.mul_div_cancel_left _ (by decide)]
    exact ⟨rfl, hcount⟩
  · rintro ⟨hmod, hcount⟩
    obtain ⟨keys, hread⟩ : ∃ keys, readKeys .providers value = .ok keys := by
      simp only [readKeys, bind_eq_ok_iff, ensure_eq_ok_iff, hmod, hcount, pure_eq_ok_iff,
        exists_const, true_and, exists_eq']
    exact ⟨keys, readKeys_eq_ok_iff.mp hread⟩

theorem exists_wordValue_iff : (∃ n, wordValue n = value) ↔ value.length = 8 := by
  constructor
  · rintro ⟨n, rfl⟩
    exact beBytes_length _ _
  · intro h
    obtain ⟨octets, rfl⟩ := Octets.exists_bytes_eq_iff.mpr h
    have hread : readWord .timelock octets.bytes = .ok (UInt64.ofNat octets.toNat) := by
      simp only [readWord, bind_eq_ok_iff, readFixed_eq_ok_iff, pure_eq_ok_iff]
      exact ⟨octets, rfl, rfl⟩
    exact ⟨_, readWord_eq_ok_iff.mp hread⟩

theorem exists_messageKeyValue_iff :
    (∃ key, messageKeyValue key = value) ↔ value.length = 32 ∨ value.length = 33 := by
  constructor
  · rintro ⟨key, rfl⟩
    cases key with
    | xOnly key => exact .inl key.length_eq
    | compressed key => exact .inr key.length_eq
  · rintro (h | h)
    · exact ⟨.xOnly ⟨⟨value, h⟩⟩, rfl⟩
    · exact ⟨.compressed ⟨⟨value, h⟩⟩, rfl⟩

theorem exists_packed_iff :
    (∃ path : KeyPath, path.Packed ∧ path.bytes = value) ↔
      value.length % 4 = 0 ∧ 1 ≤ value.length / 4 ∧ value.length / 4 ≤ KeyPath.maxDepth := by
  constructor
  · rintro ⟨_, ⟨words, hdepth, hne, rfl⟩, rfl⟩
    have hpos : 0 < words.length := List.length_pos_iff.mpr hne
    rw [KeyPath.bytes_ofShort, wordBytes_length]
    omega
  · rintro ⟨hmod, hlow, hhigh⟩
    have hbytes := wordBytes_wordsBy hmod
    have hlength := wordBytes_length (wordsBy ofBeBytes value)
    rw [hbytes] at hlength
    have hdepth : (wordsBy ofBeBytes value).length ≤ KeyPath.maxDepth := by omega
    refine ⟨.ofShort _ hdepth, ⟨_, hdepth, ?_, rfl⟩, by rw [KeyPath.bytes_ofShort, hbytes]⟩
    rw [← List.length_pos_iff]
    omega

/-! ## Entries -/

def Legal : Entry → Prop
  | providers keys => keys.length ≤ maxKeys
  | covenantKeys keys => keys.length ≤ maxKeys
  | message text => text.length ≤ maxMessageLength
  | burnAddress script => 1 ≤ script.length ∧ script.length ≤ maxBurnAddressLength
  | derivationPath path => path.Packed
  | _ => True

theorem legal_of_read {e : Entry} (h : read tag value = .ok e) :
    e.tag = tag ∧ e.value = value ∧ e.Legal := by
  cases tag <;>
    simp only [read, map_eq_ok_iff, readAction_eq_ok_iff, readByte_eq_ok_iff, readKeys_eq_ok_iff,
      readFixed_eq_ok_iff, readWord_eq_ok_iff, readText_eq_ok_iff, readMessageKey_eq_ok_iff,
      readPath_eq_ok_iff] at h <;>
    obtain ⟨_, h, rfl⟩ := h
  case providers | covenantKeys | burnAddress | derivationPath => exact ⟨rfl, h.2, h.1⟩
  case message => exact ⟨rfl, h.2, h.1.2⟩
  all_goals exact ⟨rfl, h, trivial⟩

theorem read_value {e : Entry} (h : e.Legal) : read e.tag e.value = .ok e := by
  cases e <;>
    simp only [read, Entry.tag, Entry.value, map_eq_ok_iff, readAction_eq_ok_iff,
      readByte_eq_ok_iff, readKeys_eq_ok_iff, readFixed_eq_ok_iff, readWord_eq_ok_iff,
      readText_eq_ok_iff, readMessageKey_eq_ok_iff, readPath_eq_ok_iff]
  case providers | covenantKeys | burnAddress | derivationPath => exact ⟨_, ⟨h, rfl⟩, rfl⟩
  case message => exact ⟨_, ⟨⟨Nat.zero_le _, h⟩, rfl⟩, rfl⟩
  all_goals exact ⟨_, rfl, rfl⟩

theorem ofRecord_eq_ok_iff {r : Record} {e : Entry} :
    ofRecord r = .ok e ↔ r = e.record ∧ e.Legal := by
  constructor
  · intro h
    unfold ofRecord at h
    split at h
    · rename_i tag htag
      obtain ⟨rfl, hvalue, hlegal⟩ := legal_of_read h
      refine ⟨?_, hlegal⟩
      rw [record, Tag.code_of_ofCode? htag, hvalue]
    · cases h
  · rintro ⟨rfl, h⟩
    rw [ofRecord, record, Tag.ofCode?_code]
    exact read_value h

end Entry

end CovenantStaking

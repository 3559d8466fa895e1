import CovenantStaking.KeyPath.Bytes
import CovenantStaking.Proofs.Bytes.Pieces

/-!
# Paths and their bytes

The bytes that are read as a path are those that spell one to ten words. The path that is read holds
these words and nothing else, and so does every path that is made in another way: each is read back
from its own bytes, down to the words that are not in use.
-/

namespace CovenantStaking.KeyPath

variable {path : KeyPath} {words : List UInt32}

/-! ## Usable paths -/

/-- The components can be had, and there is a first one. -/
def Usable (path : KeyPath) : Prop :=
  ∃ first rest, path.components? = some (first :: rest)

theorem components?_eq_some_iff :
    path.components? = some words ↔ path.depth.toNat ≤ maxDepth ∧ path.components = words := by
  rw [components?, path.slots_length, Option.ite_none_right_eq_some, Option.some.injEq]
  rfl

theorem components?_eq_none_iff : path.components? = none ↔ maxDepth < path.depth.toNat := by
  rw [components?, path.slots_length, ite_eq_right_iff, ← Nat.not_le]
  simp

theorem length_components (path : KeyPath) :
    path.components.length = min path.depth.toNat maxDepth := by
  rw [components, List.length_take, path.slots_length]

theorem usable_iff : path.Usable ↔ 1 ≤ path.depth.toNat ∧ path.depth.toNat ≤ maxDepth := by
  have hlength := length_components path
  constructor
  · rintro ⟨first, rest, hwords⟩
    obtain ⟨hle, hcomponents⟩ := components?_eq_some_iff.mp hwords
    rw [hcomponents, List.length_cons] at hlength
    omega
  · rintro ⟨hpos, hle⟩
    have hlong : 0 < path.components.length := by omega
    obtain ⟨first, rest, hwords⟩ := List.exists_cons_of_length_pos hlong
    exact ⟨first, rest, components?_eq_some_iff.mpr ⟨hle, hwords⟩⟩

/-- Apart from the path without components, those that cannot be used are the ones whose components
cannot be had. -/
theorem usable_iff_components?_ne_none :
    path.Usable ↔ path.components? ≠ none ∧ path.depth.toNat ≠ 0 := by
  rw [usable_iff, ne_eq, components?_eq_none_iff]
  omega

theorem toNat_depth_ofShort (h : words.length ≤ maxDepth) :
    (ofShort words h).depth.toNat = words.length :=
  UInt8.toNat_ofNat_of_lt (Nat.lt_of_le_of_lt h (by decide))

/-! ## Packed paths -/

/-- The path holds its words and nothing else: what is not in use is zero. -/
def Packed (path : KeyPath) : Prop :=
  ∃ (words : List UInt32) (h : words.length ≤ maxDepth), words ≠ [] ∧ path = ofShort words h

theorem packed_iff : path.Packed ↔ ∃ components, ofComponents components = .ok path := by
  constructor
  · rintro ⟨components, hdepth, hne, rfl⟩
    exact ⟨components, dif_pos ⟨hne, hdepth⟩⟩
  · rintro ⟨components, h⟩
    unfold ofComponents at h
    split at h
    · rename_i hdepth
      cases h
      exact ⟨components, hdepth.2, hdepth.1, rfl⟩
    · cases h

theorem Packed.usable (h : path.Packed) : path.Usable := by
  obtain ⟨words, hdepth, hne, rfl⟩ := h
  rw [usable_iff, toNat_depth_ofShort hdepth]
  exact ⟨List.length_pos_iff.mpr hne, hdepth⟩

theorem packed_standard (purpose coin account change address : UInt32) :
    (standard purpose coin account change address).Packed :=
  ⟨_, _, List.cons_ne_nil _ _, rfl⟩

/-! ## Reading -/

theorem bytes_ofShort (h : words.length ≤ maxDepth) :
    (ofShort words h).bytes = wordBytes words := by
  rw [bytes, components_ofShort, wordBytes]

theorem ofBytes_eq_ok_iff {data : Bytes} :
    ofBytes data = .ok path ↔ path.Packed ∧ path.bytes = data := by
  constructor
  · intro h
    unfold ofBytes ofComponents at h
    split at h
    · cases h
    · rename_i hlength
      split at h
      · rename_i hdepth
        cases h
        refine ⟨⟨_, hdepth.2, hdepth.1, rfl⟩, ?_⟩
        rw [bytes_ofShort, wordBytes_wordsBy (by omega)]
      · cases h
  · rintro ⟨⟨words, hdepth, hne, rfl⟩, rfl⟩
    have hlength := wordBytes_length words
    have hpos : 0 < words.length := List.length_pos_iff.mpr hne
    have hwords : wordsBy ofBeBytes (wordBytes words) = words := wordsBy_beBytes words
    rw [bytes_ofShort, ofBytes, if_neg, ofComponents, dif_pos]
    · simp only [hwords]
    · rw [hwords]
      exact ⟨hne, hdepth⟩
    · rintro (hnil | hmod)
      · rw [hnil] at hlength
        simp only [List.length_nil] at hlength
        omega
      · omega

theorem Packed.eq_of_bytes {p q : KeyPath} (hp : p.Packed) (hq : q.Packed)
    (h : p.bytes = q.bytes) : p = q := by
  have hread := ofBytes_eq_ok_iff.mpr ⟨hp, h⟩
  rw [ofBytes_eq_ok_iff.mpr ⟨hq, rfl⟩] at hread
  exact (Except.ok.inj hread).symm

theorem eq_ofShort_iff (h : words.length ≤ maxDepth) :
    path = ofShort words h ↔ path.depth.toNat = words.length ∧
      path.slots = words ++ List.replicate (maxDepth - words.length) 0 := by
  constructor
  · rintro rfl
    exact ⟨toNat_depth_ofShort h, rfl⟩
  · rintro ⟨hdepth, hslots⟩
    rw [← toNat_depth_ofShort h] at hdepth
    exact KeyPath.ext hslots (UInt8.toNat_inj.mp hdepth)

theorem ofBytes_eq_ok_iff_bigEndian {data : Bytes} :
    ofBytes data = .ok path ↔ ∃ words, BigEndian data words ∧
      (1 ≤ words.length ∧ words.length ≤ maxDepth) ∧ path.depth.toNat = words.length ∧
      path.slots = words ++ List.replicate (maxDepth - words.length) 0 := by
  rw [ofBytes_eq_ok_iff]
  constructor
  · rintro ⟨⟨words, hdepth, hne, rfl⟩, rfl⟩
    exact ⟨words, bigEndian_iff.mpr (bytes_ofShort hdepth).symm,
      ⟨List.length_pos_iff.mpr hne, hdepth⟩, (eq_ofShort_iff hdepth).mp rfl⟩
  · rintro ⟨words, hwords, ⟨hpos, hdepth⟩, hpath⟩
    obtain rfl := (eq_ofShort_iff hdepth).mpr hpath
    refine ⟨⟨words, hdepth, List.length_pos_iff.mp hpos, rfl⟩, ?_⟩
    rw [bytes_ofShort, bigEndian_iff.mp hwords]

/-! ## Reading back -/

/-- The ways in which a path is made. -/
inductive Made : KeyPath → Prop
  | ofComponents {components : List UInt32} {path : KeyPath}
      (h : ofComponents components = .ok path) : Made path
  | ofBytes {data : Bytes} {path : KeyPath} (h : ofBytes data = .ok path) : Made path
  | taproot (coin account change address : UInt32) : Made (taproot coin account change address)
  | nativeSegwit (coin account change address : UInt32) :
      Made (nativeSegwit coin account change address)

theorem Made.packed (h : Made path) : path.Packed := by
  cases h with
  | ofComponents h => exact packed_iff.mpr ⟨_, h⟩
  | ofBytes h => exact (ofBytes_eq_ok_iff.mp h).1
  | taproot coin account change address => exact packed_standard 86 coin account change address
  | nativeSegwit coin account change address => exact packed_standard 84 coin account change address

/-- Bytes are read as a path exactly when they spell one to ten words. What is read holds the words,
their number, zeros for the words that are not in use, and nothing else, and is written as the same
bytes. However a path was made, it is read back from its bytes. -/
theorem ofBytes_inverts_bytes :
    (∀ data, (∃ path, ofBytes data = .ok path) ↔
      ∃ words, BigEndian data words ∧ 1 ≤ words.length ∧ words.length ≤ maxDepth) ∧
    (∀ data path, ofBytes data = .ok path → path.bytes = data ∧
      ∃ words, BigEndian data words ∧ path.depth.toNat = words.length ∧
        path.slots = words ++ List.replicate (maxDepth - words.length) 0) ∧
    ∀ path, Made path → path.Usable ∧ ofBytes path.bytes = .ok path := by
  refine ⟨fun data => ?_, fun data path h => ?_, fun path h => ?_⟩
  · simp only [ofBytes_eq_ok_iff_bigEndian]
    constructor
    · rintro ⟨path, words, hwords, hrange, -⟩
      exact ⟨words, hwords, hrange⟩
    · rintro ⟨words, hwords, hrange⟩
      exact ⟨ofShort words hrange.2, words, hwords, hrange, (eq_ofShort_iff hrange.2).mp rfl⟩
  · obtain ⟨words, hwords, -, hpath⟩ := ofBytes_eq_ok_iff_bigEndian.mp h
    exact ⟨(ofBytes_eq_ok_iff.mp h).2, words, hwords, hpath⟩
  · exact ⟨h.packed.usable, ofBytes_eq_ok_iff.mpr ⟨h.packed, rfl⟩⟩

/-- The path `m/86'/1'/0'/0/7`. -/
theorem ofBytes_inverts_bytes_seventh :
    let data : Bytes := [0x80, 0, 0, 86, 0x80, 0, 0, 1, 0x80, 0, 0, 0, 0, 0, 0, 0, 0, 0, 0, 7]
    ofBytes data = .ok (taproot 1 0 0 7) ∧ Made (taproot 1 0 0 7) ∧
      (taproot 1 0 0 7).bytes = data ∧
      (∃ words, BigEndian data words ∧ (taproot 1 0 0 7).depth.toNat = words.length ∧
        (taproot 1 0 0 7).slots = words ++ List.replicate (maxDepth - words.length) 0) ∧
      (taproot 1 0 0 7).Usable ∧ ofBytes (taproot 1 0 0 7).bytes = .ok (taproot 1 0 0 7) := by
  intro data
  have hread : ofBytes data = .ok (taproot 1 0 0 7) := by decide
  have hmade : Made (taproot 1 0 0 7) := .taproot 1 0 0 7
  obtain ⟨-, hwords, hback⟩ := ofBytes_inverts_bytes
  obtain ⟨hbytes, hspelled⟩ := hwords data _ hread
  exact ⟨hread, hmade, hbytes, hspelled, hback _ hmade⟩

end CovenantStaking.KeyPath

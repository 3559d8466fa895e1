import CovenantStaking.Proofs.Bytes.Numbers
import CovenantStaking.Tapscript.Tree

/-!
# What the digest of a leaf is taken of

The length of a script stands before it in the shortest of the forms that a size has. Whatever the
form, the first byte of a size tells how many more there are, so a size can be read off the bytes it
begins, and with the size the script behind it.
-/

namespace CovenantStaking.Tapscript

variable {size data rest : Bytes} {n : Nat}

/-! ## Sizes -/

/-- How many bytes of a size follow a marker: two, four or eight. -/
def markedWidth (marker : UInt8) : Nat :=
  2 ^ (marker.toNat - 0xfc)

/-- The forms of a size: a byte below `0xfd`, or the marker `0xfd`, `0xfe` or `0xff` and as many
bytes as it asks for, the least significant first. A small size may have a long form. -/
inductive CompactSize : Bytes → Nat → Prop
  | byte {first : UInt8} (low : first.toNat < 0xfd) : CompactSize [first] first.toNat
  | marked {marker : UInt8} {data : Bytes} (high : 0xfd ≤ marker.toNat)
      (width : data.length = markedWidth marker) : CompactSize (marker :: data) (ofLeBytes data)

/-- The size that bytes begin with, in any of its forms, and the bytes behind it. -/
def readSize? : Bytes → Option (Nat × Bytes)
  | [] => none
  | first :: rest =>
    let width := markedWidth first
    if first.toNat < 0xfd then some (first.toNat, rest)
    else if width ≤ rest.length then some (ofLeBytes (rest.take width), rest.drop width)
    else none

theorem CompactSize.read (h : CompactSize size n) (rest : Bytes) :
    readSize? (size ++ rest) = some (n, rest) := by
  cases h with
  | byte low => simp only [List.cons_append, List.nil_append, readSize?, low, ↓reduceIte]
  | marked high width =>
      simp only [List.cons_append, readSize?, ← width, List.length_append, Nat.le_add_right,
        List.take_left', List.drop_left', if_neg (Nat.not_lt.mpr high), ↓reduceIte]

theorem readSize?_eq_some_iff :
    readSize? data = some (n, rest) ↔ ∃ size, data = size ++ rest ∧ CompactSize size n := by
  constructor
  · intro h
    unfold readSize? at h
    split at h
    · cases h
    · rename_i first tail
      dsimp only at h
      split at h
      · rename_i low
        cases h
        exact ⟨[first], rfl, .byte low⟩
      · rename_i high
        split at h
        · rename_i fits
          obtain ⟨rfl, rfl⟩ := Prod.mk.inj (Option.some.inj h)
          refine ⟨first :: tail.take (markedWidth first), ?_,
            .marked (Nat.not_lt.mp high) (List.length_take_of_le fits)⟩
          rw [List.cons_append, List.take_append_drop]
        · cases h
  · rintro ⟨size, rfl, hsize⟩
    exact hsize.read rest

/-! ## Shortest forms -/

theorem compactSize_cases (n : Nat) :
    n < 0xfd ∧ compactSize n = [UInt8.ofNat n] ∨
    0xfd ≤ n ∧ n ≤ 0xffff ∧ compactSize n = 0xfd :: leBytes 2 n ∨
    0xffff < n ∧ compactSize n = 0xfe :: leBytes 4 n := by
  unfold compactSize
  split
  · exact .inl ⟨‹_›, rfl⟩
  · split
    · exact .inr (.inl ⟨by omega, ‹_›, rfl⟩)
    · exact .inr (.inr ⟨by omega, rfl⟩)

/-- A length is written in a form of a size, as far as four bytes hold it. -/
theorem compactSize_form (n : Nat) : CompactSize (compactSize n) (n % 2 ^ 32) := by
  obtain ⟨hsmall, heq⟩ | ⟨-, hhigh, heq⟩ | ⟨-, heq⟩ := compactSize_cases n
  · have hfirst : (UInt8.ofNat n).toNat = n := UInt8.toNat_ofNat_of_lt (by omega : n < 256)
    have hform := @CompactSize.byte (UInt8.ofNat n) (by omega)
    rw [heq, Nat.mod_eq_of_lt (by omega)]
    rwa [hfirst] at hform
  · have hform := @CompactSize.marked 0xfd _ (by decide) (leBytes_length 2 n)
    rw [heq, Nat.mod_eq_of_lt (by omega)]
    rwa [ofLeBytes_leBytes (by omega)] at hform
  · have hform := @CompactSize.marked 0xfe _ (by decide) (leBytes_length 4 n)
    rw [heq]
    rwa [ofLeBytes_leBytes_mod] at hform

theorem marker_cases {marker : UInt8} (high : 0xfd ≤ marker.toNat) :
    marker = 0xfd ∨ marker = 0xfe ∨ marker = 0xff := by
  have hlt := marker.toNat_lt
  simp only [← UInt8.toNat_inj, UInt8.reduceToNat]
  omega

/-- Every form of a size is longer than the one that is written, but for that one itself. -/
theorem CompactSize.eq_or_longer (h : CompactSize size n) :
    size = compactSize n ∨ (compactSize n).length < size.length := by
  -- a form with the marker that is written has the same bytes, and any later marker asks for more
  obtain ⟨hsmall, heq⟩ | ⟨hlow, hhigh, heq⟩ | ⟨hlarge, heq⟩ := compactSize_cases n
  all_goals rw [heq]
  · cases h with
    | byte low =>
        rw [UInt8.ofNat_toNat]
        exact .inl rfl
    | @marked marker data high width =>
        have hpos : 0 < markedWidth marker := Nat.two_pow_pos _
        rw [List.length_singleton, List.length_cons]
        exact .inr (by omega)
  · cases h with
    | byte low => omega
    | @marked marker data high width =>
        have hback := leBytes_ofLeBytes data
        obtain rfl | rfl | rfl := marker_cases high
        · rw [width] at hback
          exact .inl (congrArg (0xfd :: ·) hback.symm)
        · exact .inr (by simp [width, markedWidth])
        · exact .inr (by simp [width, markedWidth])
  · cases h with
    | byte low => omega
    | @marked marker data high width =>
        have hlt := ofLeBytes_lt data
        have hback := leBytes_ofLeBytes data
        obtain rfl | rfl | rfl := marker_cases high
        · rw [width] at hlt
          exact absurd hlt (Nat.not_lt.mpr hlarge)
        · rw [width] at hback
          exact .inl (congrArg (0xfe :: ·) hback.symm)
        · exact .inr (by simp [width, markedWidth])

/-! ## Payloads -/

/-- The bytes that a size in front of them counts, and what is left over. -/
def readSized? (data : Bytes) : Option (Bytes × Bytes) := do
  let (n, rest) ← readSize? data
  if n ≤ rest.length then some (rest.take n, rest.drop n) else none

theorem readSized?_eq_some_iff {bytes : Bytes} :
    readSized? bytes = some (data, rest) ↔
      ∃ size, bytes = size ++ (data ++ rest) ∧ CompactSize size data.length := by
  constructor
  · intro h
    obtain ⟨⟨n, tail⟩, hread, hcut⟩ := Option.bind_eq_some_iff.mp h
    obtain ⟨size, rfl, hsize⟩ := readSize?_eq_some_iff.mp hread
    dsimp only at hcut
    split at hcut
    · rename_i fits
      obtain ⟨rfl, rfl⟩ := Prod.mk.inj (Option.some.inj hcut)
      rw [← List.length_take_of_le fits] at hsize
      exact ⟨size, by rw [List.take_append_drop], hsize⟩
    · cases hcut
  · rintro ⟨size, rfl, hsize⟩
    rw [readSized?, hsize.read]
    simp

/-- The bytes behind a length are told by the first byte of the length. -/
theorem compactSize_append_inj {m n : Nat} {rest rest' : Bytes}
    (h : compactSize m ++ rest = compactSize n ++ rest') : rest = rest' := by
  have hread := (compactSize_form m).read rest
  rw [h, (compactSize_form n).read rest'] at hread
  exact (Prod.mk.inj (Option.some.inj hread)).2.symm

theorem leafPayload_injective : Function.Injective leafPayload := by
  intro script script' h
  exact compactSize_append_inj (List.cons.inj h).2

/-- What a leaf hashes is the version, the length of the script in the shortest of its forms, and
the script. So the script can be read off it, nothing is left over, and no other script gives it. -/
theorem leafPayload_canonical [Crypto] {script : Bytes} (h : script.length < 2 ^ 32) :
    leaf script = ⟨Crypto.taggedHash leafTag (leafPayload script)⟩ ∧
    (∃ size, leafPayload script = 0xc0 :: (size ++ script) ∧ CompactSize size script.length ∧
      ∀ other, CompactSize other script.length → other = size ∨ size.length < other.length) ∧
    readSized? (leafPayload script).tail = some (script, []) ∧
    ∀ other, other ≠ script → leafPayload other ≠ leafPayload script := by
  have hform := compactSize_form script.length
  rw [Nat.mod_eq_of_lt h] at hform
  have hread : readSized? (leafPayload script).tail = some (script, []) := by
    refine readSized?_eq_some_iff.mpr ⟨compactSize script.length, ?_, hform⟩
    rw [List.append_nil]
    rfl
  exact ⟨rfl, ⟨compactSize script.length, rfl, hform, fun other hother => hother.eq_or_longer⟩,
    hread, fun other hne heq => hne (leafPayload_injective heq)⟩

/-- A script of 253 bytes is the shortest whose length takes three. -/
theorem leafPayload_canonical_of_253_bytes :
    let script : Bytes := List.replicate 253 Opcode.one
    script.length < 2 ^ 32 ∧ leafPayload script = [0xc0, 0xfd, 0xfd, 0x00] ++ script ∧
      leaf script = ⟨Crypto.taggedHash leafTag (leafPayload script)⟩ ∧
      (∃ size, leafPayload script = 0xc0 :: (size ++ script) ∧ CompactSize size script.length ∧
        ∀ other, CompactSize other script.length → other = size ∨ size.length < other.length) ∧
      readSized? (leafPayload script).tail = some (script, []) ∧
      ∀ other, other ≠ script → leafPayload other ≠ leafPayload script := by
  intro script
  have hlength : script.length = 253 := List.length_replicate
  have h : script.length < 2 ^ 32 := by
    rw [hlength]
    decide
  have hpayload : leafPayload script = [0xc0, 0xfd, 0xfd, 0x00] ++ script := by
    rw [leafPayload, hlength]
    rfl
  exact ⟨h, hpayload, leafPayload_canonical h⟩

end CovenantStaking.Tapscript

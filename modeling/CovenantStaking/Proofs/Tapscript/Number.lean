import CovenantStaking.Proofs.Bytes.Numbers
import CovenantStaking.Tapscript.Number
import Mathlib.Data.List.Basic

/-!
# Numbers as bytes of a script

How many bytes a number takes, that its bytes stand for it, and that no others of as few do. Byte
after byte, until nothing of the magnitude is left, gives the same bytes as their number and the
number itself do.
-/

namespace CovenantStaking.Tapscript

/-! ## Width -/

/-- The fewest bytes that hold the magnitude `n` and a sign. -/
def numberWidth (n : Nat) : Nat :=
  (2 * n).log2 / 8 + 1

/-- The sign takes one of the bits of a width. -/
theorem two_mul_sign {width : Nat} (hw : 0 < width) : 2 * 2 ^ (8 * width - 1) = 256 ^ width := by
  rw [← Nat.pow_succ', Nat.succ_eq_add_one, Nat.sub_add_cancel (by omega), Nat.pow_mul]

theorem sign_eq (width : Nat) : 2 ^ (8 * (width + 1) - 1) = 256 ^ width * 128 := by
  have hsign : 2 * 2 ^ (8 * (width + 1) - 1) = 256 ^ (width + 1) :=
    two_mul_sign (Nat.succ_pos width)
  rw [Nat.pow_succ] at hsign
  omega

/-- A width holds a magnitude when the top bit of its last byte stays free for the sign. -/
theorem numberWidth_le_iff {n width : Nat} (hw : 0 < width) :
    numberWidth n ≤ width ↔ n < 2 ^ (8 * width - 1) := by
  have hsign := two_mul_sign hw
  by_cases hn : n = 0
  · subst hn
    have hpos : 0 < 2 ^ (8 * width - 1) := Nat.two_pow_pos _
    simp only [numberWidth, Nat.mul_zero, Nat.log2_zero, hpos, iff_true]
    omega
  · have hlog : (2 * n).log2 < 8 * width ↔ 2 * n < 2 ^ (8 * width) := Nat.log2_lt (by omega)
    rw [Nat.pow_mul, ← hsign] at hlog
    unfold numberWidth
    omega

theorem numberWidth_pos (n : Nat) : 0 < numberWidth n :=
  Nat.succ_pos _

theorem lt_numberWidth (n : Nat) : n < 2 ^ (8 * numberWidth n - 1) :=
  (numberWidth_le_iff (numberWidth_pos n)).mp (Nat.le_refl _)

/-! ## Sign and magnitude -/

/-- The sign and the magnitude of a number in `width` bytes. -/
def signedBytes (width : Nat) (value : Int) : Bytes :=
  leBytes width (value.natAbs + if value < 0 then 1 <<< (8 * width - 1) else 0)

@[simp] theorem signedBytes_length (width : Nat) (value : Int) :
    (signedBytes width value).length = width := by
  simp [signedBytes]

theorem ofSignedBytes_signedBytes {width : Nat} {value : Int} (hw : 0 < width)
    (h : value.natAbs < 2 ^ (8 * width - 1)) :
    ofSignedBytes (signedBytes width value) = value := by
  have hsign := two_mul_sign hw
  unfold ofSignedBytes
  simp only [signedBytes_length, Nat.one_shiftLeft]
  by_cases hneg : value < 0
  · have hfit : value.natAbs + 2 ^ (8 * width - 1) < 256 ^ width := by omega
    simp only [signedBytes, hneg, ↓reduceIte, Nat.one_shiftLeft, ofLeBytes_leBytes hfit,
      Nat.le_add_left]
    omega
  · have hfit : value.natAbs + 0 < 256 ^ width := by omega
    simp only [signedBytes, hneg, ↓reduceIte, ofLeBytes_leBytes hfit]
    rw [if_neg (by omega)]
    omega

/-! ## Which bytes stand for a number -/

variable {data : Bytes}

/-- The top bit of the last byte is the sign, all other bits are the magnitude. -/
theorem ofSignedBytes_concat (low : Bytes) (top : UInt8) :
    ofSignedBytes (low ++ [top]) = (if top.toNat < 128 then 1 else -1) *
      ((ofLeBytes low + 256 ^ low.length * (top.toNat % 128) : Nat) : Int) := by
  have hlow := ofLeBytes_lt low
  have htop := top.toNat_lt
  simp only [ofSignedBytes, Nat.one_shiftLeft, List.length_append, List.length_singleton, sign_eq,
    ofLeBytes_append, ofLeBytes, Nat.mul_zero, Nat.add_zero]
  by_cases hneg : top.toNat < 128
  · have hle : 256 ^ low.length * top.toNat ≤ 256 ^ low.length * 127 :=
      Nat.mul_le_mul_left _ (by omega)
    rw [if_neg (by omega), Nat.mod_eq_of_lt hneg, if_pos hneg, Int.one_mul]
  · obtain ⟨n, hn⟩ : ∃ n, top.toNat = 128 + n := ⟨top.toNat - 128, by omega⟩
    rw [if_neg hneg, Int.neg_one_mul, hn, Nat.mul_add, Nat.add_mod_left,
      Nat.mod_eq_of_lt (by omega), if_pos (by omega)]
    omega

theorem natAbs_ofSignedBytes_concat (low : Bytes) (top : UInt8) :
    (ofSignedBytes (low ++ [top])).natAbs =
      ofLeBytes low + 256 ^ low.length * (top.toNat % 128) := by
  rw [ofSignedBytes_concat]
  split
  · omega
  · omega

/-- A number takes no more bytes than any that stand for it. -/
theorem numberWidth_ofSignedBytes_le (h : data ≠ []) :
    numberWidth (ofSignedBytes data).natAbs ≤ data.length := by
  obtain ⟨low, top, rfl⟩ := (List.eq_nil_or_concat' data).resolve_left h
  have hlow := ofLeBytes_lt low
  have htop : 256 ^ low.length * (top.toNat % 128) ≤ 256 ^ low.length * 127 :=
    Nat.mul_le_mul_left _ (by omega)
  rw [List.length_append, List.length_singleton, numberWidth_le_iff (Nat.succ_pos _),
    natAbs_ofSignedBytes_concat, sign_eq]
  omega

/-- A number fits one byte less when the last byte has no bit of the magnitude and the byte below it
has room for the sign. -/
theorem numberWidth_ofSignedBytes_lt_iff (low : Bytes) (below top : UInt8) :
    numberWidth (ofSignedBytes (low ++ [below] ++ [top])).natAbs < low.length + 2 ↔
      top.toNat % 128 = 0 ∧ below.toNat < 128 := by
  rw [Nat.lt_succ_iff, numberWidth_le_iff (Nat.succ_pos _), natAbs_ofSignedBytes_concat, sign_eq,
    ofLeBytes_append, List.length_append, List.length_singleton, Nat.pow_succ]
  simp only [ofLeBytes, Nat.mul_zero, Nat.add_zero]
  have hlow := ofLeBytes_lt low
  constructor
  · intro hlt
    have htop : top.toNat % 128 = 0 := by
      by_contra hne
      have hle : 256 ^ low.length * 256 * 1 ≤ 256 ^ low.length * 256 * (top.toNat % 128) :=
        Nat.mul_le_mul_left _ (by omega)
      omega
    refine ⟨htop, ?_⟩
    by_contra hge
    have hle : 256 ^ low.length * 128 ≤ 256 ^ low.length * below.toNat :=
      Nat.mul_le_mul_left _ (by omega)
    omega
  · rintro ⟨htop, hbelow⟩
    have hle : 256 ^ low.length * below.toNat ≤ 256 ^ low.length * 127 :=
      Nat.mul_le_mul_left _ (by omega)
    rw [htop]
    omega

/-- Only zero has two forms of one width, one for each sign. -/
theorem signedBytes_ofSignedBytes (h : ofSignedBytes data ≠ 0) :
    signedBytes data.length (ofSignedBytes data) = data := by
  have hbits : (ofSignedBytes data).natAbs +
      (if ofSignedBytes data < 0 then 1 <<< (8 * data.length - 1) else 0) = ofLeBytes data := by
    by_cases hsign : 1 <<< (8 * data.length - 1) ≤ ofLeBytes data
    · have hvalue : ofSignedBytes data =
          -((ofLeBytes data - 1 <<< (8 * data.length - 1) : Nat) : Int) := if_pos hsign
      rw [hvalue] at h ⊢
      rw [if_pos (by omega)]
      omega
    · have hvalue : ofSignedBytes data = (ofLeBytes data : Int) := if_neg hsign
      rw [hvalue, if_neg (by omega)]
      omega
  rw [signedBytes, hbits, leBytes_ofLeBytes]

/-! ## Bytes that are needed -/

/-- The last byte cannot be left out: it holds a bit of the magnitude, or the byte below it has no
room for the sign. -/
def Tight (data : Bytes) : Prop :=
  ∀ top ∈ data.getLast?, top.toNat % 128 = 0 → ∃ below ∈ data.dropLast.getLast?, 128 ≤ below.toNat

-- Found by search, the instance would run over all bytes and not over the one that is there.
instance (data : Bytes) : Decidable (Tight data) :=
  Option.decidableForallMem data.getLast?

theorem tight_concat_iff {low : Bytes} {top : UInt8} :
    Tight (low ++ [top]) ↔ (top.toNat % 128 = 0 → ∃ below ∈ low.getLast?, 128 ≤ below.toNat) := by
  simp [Tight]

theorem tight_iff (h : ofSignedBytes data ≠ 0) :
    Tight data ↔ numberWidth (ofSignedBytes data).natAbs = data.length := by
  have hne : data ≠ [] := by
    rintro rfl
    exact h rfl
  have hle := numberWidth_ofSignedBytes_le hne
  obtain ⟨low, top, rfl⟩ := (List.eq_nil_or_concat' data).resolve_left hne
  rw [tight_concat_iff]
  rcases List.eq_nil_or_concat' low with rfl | ⟨lower, below, rfl⟩
  · have hmagnitude := natAbs_ofSignedBytes_concat [] top
    have hpos := numberWidth_pos (ofSignedBytes ([] ++ [top])).natAbs
    simp only [List.length_append, List.length_singleton, List.length_nil, ofLeBytes, Nat.pow_zero,
      List.getLast?_nil, Option.mem_def, reduceCtorEq, false_and, exists_false, imp_false]
      at hle hmagnitude ⊢
    omega
  · have hlt := numberWidth_ofSignedBytes_lt_iff lower below top
    simp only [List.length_append, List.length_singleton, List.getLast?_concat, Option.mem_def,
      Option.some.injEq, exists_eq_left'] at hle hlt ⊢
    omega

/-! ## Byte after byte -/

theorem ofLeBytes_magnitudeBytes (n : Nat) : ofLeBytes (magnitudeBytes n) = n := by
  fun_induction magnitudeBytes n with
  | case1 => rfl
  | case2 n hn ih =>
      rw [ofLeBytes, ih, UInt8.toNat_ofNat']
      omega

theorem magnitudeBytes_eq_nil_iff {n : Nat} : magnitudeBytes n = [] ↔ n = 0 := by
  rw [magnitudeBytes]
  split <;> simp [*]

/-- The loop ends with the last byte that has a bit set. -/
theorem magnitudeBytes_getLast?_ne {n : Nat} {top : UInt8}
    (h : (magnitudeBytes n).getLast? = some top) : top.toNat ≠ 0 := by
  fun_induction magnitudeBytes n with
  | case1 => cases h
  | case2 n hn ih =>
      by_cases hrest : n / 256 = 0
      · rw [hrest, magnitudeBytes, if_pos rfl, List.getLast?_singleton, Option.some.injEq] at h
        rw [← h, UInt8.toNat_ofNat']
        omega
      · have hne := magnitudeBytes_eq_nil_iff.not.mpr hrest
        obtain ⟨b, bs, hbytes⟩ := List.exists_cons_of_ne_nil hne
        rw [hbytes, List.getLast?_cons_cons, ← hbytes] at h
        exact ih h

theorem toNat_or_sign {top : UInt8} (h : top.toNat < 128) :
    (top ||| 0x80).toNat = 128 + top.toNat := by
  rw [UInt8.toNat_or, Nat.or_comm]
  exact (Nat.two_pow_add_eq_or_of_lt (i := 7) h 1).symm

/-- A byte for the sign alone adds nothing to the magnitude; it is needed where the byte below has
no room for the sign. -/
theorem ofSignedBytes_lone_sign (low : Bytes) {top : UInt8} (sign : UInt8)
    (hfull : 128 ≤ top.toNat) (hsign : sign.toNat % 128 = 0) :
    ofSignedBytes (low ++ [top] ++ [sign]) =
        (if sign.toNat < 128 then 1 else -1) * (ofLeBytes (low ++ [top]) : Int) ∧
      Tight (low ++ [top] ++ [sign]) := by
  rw [ofSignedBytes_concat, hsign, Nat.mul_zero, Nat.add_zero, tight_concat_iff,
    List.getLast?_concat]
  exact ⟨rfl, fun _ => ⟨top, rfl, hfull⟩⟩

/-- A sign in a byte of the magnitude, of which another bit is set. -/
theorem ofSignedBytes_shared_sign (low : Bytes) {top : UInt8} (last : UInt8)
    (htop : top.toNat ≠ 0) (hlast : last.toNat % 128 = top.toNat) :
    ofSignedBytes (low ++ [last]) =
        (if last.toNat < 128 then 1 else -1) * (ofLeBytes (low ++ [top]) : Int) ∧
      Tight (low ++ [last]) := by
  rw [ofSignedBytes_concat, hlast, tight_concat_iff, hlast, ofLeBytes_append, ofLeBytes, ofLeBytes,
    Nat.mul_zero, Nat.add_zero]
  exact ⟨rfl, fun hzero => absurd hzero htop⟩

/-- The bytes of a magnitude with a sign stand for the number, and none of them can be left out. -/
theorem withSign_magnitudeBytes {value : Int} (h : value ≠ 0) :
    ofSignedBytes (withSign (value < 0) (magnitudeBytes value.natAbs)) = value ∧
      Tight (withSign (value < 0) (magnitudeBytes value.natAbs)) := by
  have hvalue := ofLeBytes_magnitudeBytes value.natAbs
  have hne : magnitudeBytes value.natAbs ≠ [] :=
    magnitudeBytes_eq_nil_iff.not.mpr (Int.natAbs_ne_zero.mpr h)
  obtain ⟨low, top, hbytes⟩ := (List.eq_nil_or_concat' _).resolve_left hne
  have htop : top.toNat ≠ 0 := magnitudeBytes_getLast?_ne (hbytes ▸ List.getLast?_concat)
  rw [hbytes] at hvalue ⊢
  simp only [withSign, List.getLast?_concat, List.dropLast_concat, decide_eq_true_eq]
  -- whether the top bit is taken, and which sign there is to write
  by_cases hfull : 0x80 ≤ top.toNat
  · rw [if_pos hfull]
    by_cases hneg : value < 0
    · rw [if_pos hneg]
      obtain ⟨hof, htight⟩ := ofSignedBytes_lone_sign low 0x80 hfull rfl
      rw [hvalue, if_neg (by decide)] at hof
      exact ⟨by omega, htight⟩
    · rw [if_neg hneg]
      obtain ⟨hof, htight⟩ := ofSignedBytes_lone_sign low 0x00 hfull rfl
      rw [hvalue, if_pos (by decide)] at hof
      exact ⟨by omega, htight⟩
  · rw [if_neg hfull]
    by_cases hneg : value < 0
    · rw [if_pos hneg]
      have hor := toNat_or_sign (Nat.lt_of_not_le hfull)
      obtain ⟨hof, htight⟩ := ofSignedBytes_shared_sign low (top ||| 0x80) htop (by omega)
      rw [hvalue, if_neg (by omega)] at hof
      exact ⟨by omega, htight⟩
    · rw [if_neg hneg]
      obtain ⟨hof, htight⟩ := ofSignedBytes_shared_sign low top htop (by omega)
      rw [hvalue, if_pos (by omega)] at hof
      exact ⟨by omega, htight⟩

/-- Byte after byte gives the sign and the magnitude in the fewest bytes that hold both. -/
theorem withSign_magnitudeBytes_eq_signedBytes {value : Int} (h : value ≠ 0) :
    withSign (value < 0) (magnitudeBytes value.natAbs) =
      signedBytes (numberWidth value.natAbs) value := by
  obtain ⟨hvalue, htight⟩ := withSign_magnitudeBytes h
  have hne := hvalue.symm ▸ h
  have hwidth := (tight_iff hne).mp htight
  have hdata := signedBytes_ofSignedBytes hne
  rw [← hwidth, hvalue] at hdata
  exact hdata.symm

/-- What is pushed for a number, with the width and the bytes in closed form. -/
theorem pushNumber_eq (value : Int) : pushNumber value =
    if value = 0 then [0x00]
    else if 1 ≤ value ∧ value ≤ 15 then [0x50 + UInt8.ofNat value.toNat]
    else
      UInt8.ofNat (numberWidth value.natAbs) :: signedBytes (numberWidth value.natAbs) value := by
  by_cases hzero : value = 0
  · rw [pushNumber, if_pos hzero, if_pos hzero]
  · have hdata := withSign_magnitudeBytes_eq_signedBytes hzero
    simp only [pushNumber, if_neg hzero, hdata, signedBytes_length]

end CovenantStaking.Tapscript

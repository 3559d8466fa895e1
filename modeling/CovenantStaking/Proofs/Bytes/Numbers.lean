import CovenantStaking.Bytes.Basic
import Mathlib.Algebra.Ring.Nat

/-!
# Numbers as bytes

A number that fits its width reads back from its bytes.
-/

namespace CovenantStaking

theorem ofLeBytes_lt (bytes : Bytes) : ofLeBytes bytes < 256 ^ bytes.length := by
  induction bytes with
  | nil => simp [ofLeBytes]
  | cons b bs ih =>
    have := b.toNat_lt
    simp only [ofLeBytes, List.length_cons, Nat.pow_succ]
    omega

theorem ofBeBytes_lt (bytes : Bytes) : ofBeBytes bytes < 256 ^ bytes.length := by
  simpa [ofBeBytes] using ofLeBytes_lt bytes.reverse

theorem ofLeBytes_append (low high : Bytes) :
    ofLeBytes (low ++ high) = ofLeBytes low + 256 ^ low.length * ofLeBytes high := by
  induction low with
  | nil => simp [ofLeBytes]
  | cons b low ih =>
    simp only [List.cons_append, ofLeBytes, ih, List.length_cons, Nat.pow_succ', Nat.mul_add,
      Nat.mul_assoc, Nat.add_assoc]

theorem ofLeBytes_leBytes_mod (width value : Nat) :
    ofLeBytes (leBytes width value) = value % 256 ^ width := by
  induction width generalizing value with
  | zero => exact (Nat.mod_one value).symm
  | succ width ih =>
    have hsplit : value % 256 ^ (width + 1) = value % 256 + 256 * (value / 256 % 256 ^ width) := by
      rw [Nat.pow_succ', Nat.mod_mul]
    rw [leBytes, ofLeBytes, ih, UInt8.toNat_ofNat', hsplit]

theorem ofLeBytes_leBytes {width value : Nat} (h : value < 256 ^ width) :
    ofLeBytes (leBytes width value) = value := by
  rw [ofLeBytes_leBytes_mod, Nat.mod_eq_of_lt h]

theorem ofBeBytes_beBytes {width value : Nat} (h : value < 256 ^ width) :
    ofBeBytes (beBytes width value) = value := by
  simp [ofBeBytes, beBytes, ofLeBytes_leBytes h]

theorem wordsBy_beBytes (words : List UInt32) :
    wordsBy ofBeBytes (words.flatMap fun w => beBytes 4 w.toNat) = words := by
  induction words with
  | nil => rfl
  | cons w words ih =>
    have hw : w.toNat < 256 ^ 4 := w.toNat_lt
    obtain ⟨a, b, c, d, h⟩ : ∃ a b c d, beBytes 4 w.toNat = [a, b, c, d] := ⟨_, _, _, _, rfl⟩
    rw [List.flatMap_cons, h]
    simp only [List.cons_append, List.nil_append, wordsBy, ih]
    rw [← h, ofBeBytes_beBytes hw]
    simp

end CovenantStaking

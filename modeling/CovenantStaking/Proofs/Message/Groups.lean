import CovenantStaking.Proofs.Bytes.Pieces
import CovenantStaking.Proofs.Message.Text

/-!
# What a text carries

The groups of a text hold the bits of the message and some zeros after them. There are fewer of
these than a byte has, so the number of groups tells the length of the message, and the text tells
the message.
-/

namespace CovenantStaking

namespace Bech32

/-! ## Bits -/

/-- The bits of groups, five of each. -/
def ungroup (groups : List Nat) : List Bool :=
  groups.flatMap fun group => [4, 3, 2, 1, 0].map group.testBit

theorem ungroup_cons (a b c d e : Bool) (groups : List Nat) :
    ungroup (group [a, b, c, d, e] :: groups) = [a, b, c, d, e] ++ ungroup groups := by
  have hbits : ∀ a b c d e : Bool,
      [4, 3, 2, 1, 0].map (group [a, b, c, d, e]).testBit = [a, b, c, d, e] := by decide
  rw [ungroup, List.flatMap_cons, hbits, ungroup]

theorem prefix_ungroup_regroup (bits : List Bool) : bits <+: ungroup (regroup bits) := by
  fun_induction regroup bits with
  | case1 a b c d e rest ih =>
      rw [ungroup_cons]
      exact (List.prefix_append_right_inj [a, b, c, d, e]).mpr ih
  | case2 => exact List.nil_prefix
  | case3 last hshort hne =>
      -- a group that is short of bits is the one with zeros in their place
      rcases last with _ | ⟨a, _ | ⟨b, _ | ⟨c, _ | ⟨d, _ | ⟨e, rest⟩⟩⟩⟩⟩
      case nil => exact absurd rfl hne
      case cons.nil => exact ⟨_, (ungroup_cons a false false false false []).symm⟩
      case cons.cons.nil => exact ⟨_, (ungroup_cons a b false false false []).symm⟩
      case cons.cons.cons.nil => exact ⟨_, (ungroup_cons a b c false false []).symm⟩
      case cons.cons.cons.cons.nil => exact ⟨_, (ungroup_cons a b c d false []).symm⟩
      case cons.cons.cons.cons.cons => exact (hshort a b c d e rest rfl).elim

theorem bits_injective : Function.Injective bits := by
  intro a b h
  have hbits := List.map_eq_map_iff.mp h
  apply UInt8.toNat_inj.mp
  apply Nat.eq_of_testBit_eq
  intro i
  by_cases hi : i < 8
  · exact hbits i (by simp; omega)
  · have hpow : 2 ^ 8 ≤ 2 ^ i := Nat.pow_le_pow_right (by decide) (by omega)
    rw [Nat.testBit_lt_two_pow (Nat.lt_of_lt_of_le a.toNat_lt hpow),
      Nat.testBit_lt_two_pow (Nat.lt_of_lt_of_le b.toNat_lt hpow)]

theorem groups_injective : Function.Injective groups := by
  intro data data' h
  have hlength : data.length = data'.length := by
    have := congrArg List.length h
    rw [groups_length, groups_length] at this
    omega
  have hbits : data.flatMap bits = data'.flatMap bits := by
    have hprefix := prefix_ungroup_regroup (data.flatMap bits)
    have hprefix' := prefix_ungroup_regroup (data'.flatMap bits)
    rw [← groups] at hprefix hprefix'
    rw [h] at hprefix
    have heq : (data.flatMap bits).length = (data'.flatMap bits).length := by
      rw [flatMap_bits_length, flatMap_bits_length, hlength]
    exact (List.prefix_of_prefix_length_le hprefix hprefix' (Nat.le_of_eq heq)).eq_of_length heq
  exact flatMap_inj bits_length bits_injective hlength hbits

/-! ## Characters -/

theorem group_lt (bits : List Bool) : group bits < 32 := by
  have hbit (i : Nat) : (bits.getD i false).toNat ≤ 1 := Bool.toNat_le _
  have h0 := hbit 0
  have h1 := hbit 1
  have h2 := hbit 2
  have h3 := hbit 3
  have h4 := hbit 4
  simp only [group, List.foldl_cons, List.foldl_nil]
  omega

theorem lt_of_mem_regroup {bits : List Bool} {g : Nat} (h : g ∈ regroup bits) : g < 32 := by
  fun_induction regroup bits with
  | case1 a b c d e rest ih =>
      rcases List.mem_cons.mp h with rfl | hrest
      · exact group_lt _
      · exact ih hrest
  | case2 => cases h
  | case3 last =>
      rw [List.mem_singleton.mp h]
      exact group_lt last

/-- The group that a character of the alphabet stands for. -/
def value (character : UInt8) : Nat :=
  (alphabet.map fun c => UInt8.ofNat c.toNat).idxOf character

theorem value_symbol {g : Nat} (h : g < 32) : value (UInt8.ofNat (symbol g).toNat) = g := by
  revert g
  decide

theorem map_value_symbol {gs : List Nat} (h : ∀ g ∈ gs, g < 32) :
    (gs.map fun g => UInt8.ofNat (symbol g).toNat).map value = gs := by
  rw [List.map_map]
  exact (List.map_congr_left fun g hg => value_symbol (h g hg)).trans (List.map_id gs)

theorem ascii_encode_inj {readable : List Char} {data data' : Bytes}
    (h : ascii (String.ofList (encode readable data)) =
      ascii (String.ofList (encode readable data'))) : data = data' := by
  simp only [ascii, String.toList_ofList, encode, List.map_append, List.map_cons,
    List.map_map] at h
  obtain ⟨-, hsymbols⟩ := List.cons.inj (List.append_cancel_left h)
  obtain ⟨hgroups, -⟩ := List.append_inj' hsymbols rfl
  have hread (data : Bytes) :
      ((groups data).map ((fun c => UInt8.ofNat c.toNat) ∘ symbol)).map value = groups data :=
    map_value_symbol fun _ => lt_of_mem_regroup
  apply groups_injective
  rw [← hread data, hgroups, hread data']

end Bech32

end CovenantStaking

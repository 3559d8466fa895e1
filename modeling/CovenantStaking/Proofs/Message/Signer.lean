import CovenantStaking.Message.Signer
import CovenantStaking.Proofs.Outcome

/-!
# The signer at a path

With the key at a path known, the path alone decides who signs. A key that is named besides can only
be that key again.
-/

namespace CovenantStaking

variable {kind : AddressKind} {key : PublicKey}

/-- The index of the first component of a path to an address of this kind. -/
def AddressKind.purpose : AddressKind → Nat
  | taproot => 86
  | nativeSegwit => 84

/-- The signer that the address of a key holds. -/
def AddressKind.signer (kind : AddressKind) (key : PublicKey) : Signer :=
  match kind with
  | taproot => .taproot key.xOnly
  | nativeSegwit => .nativeSegwit key

theorem KeyPath.addressKind_eq_ok_iff {path : KeyPath} :
    path.addressKind = .ok kind ↔ path.components.head?.map index = some kind.purpose := by
  unfold addressKind
  cases path.components with
  | nil => simp
  | cons first rest =>
      simp only [List.head?_cons, Option.map_some, Option.some.injEq]
      split
      · rename_i hsegwit
        cases kind <;> simp [AddressKind.purpose, hsegwit]
      · split
        · rename_i htaproot
          cases kind <;> simp [AddressKind.purpose, htaproot]
        · cases kind <;> simp [AddressKind.purpose, *]

theorem MessageKey.agrees_iff {name : MessageKey} :
    name.agrees key ↔ name = .xOnly key.xOnly ∨ name = .compressed key := by
  cases name <;> simp [agrees]

namespace Signer

variable {named : Option MessageKey}

theorem checkAgreement_eq_ok_iff {u : Unit} :
    checkAgreement named (some key) = .ok u ↔
      ∀ name ∈ named, name = .xOnly key.xOnly ∨ name = .compressed key := by
  simp only [← MessageKey.agrees_iff]
  cases named <;> simp [checkAgreement]

/-- A key that is named may have the signer refused, but never chooses it. -/
theorem choose_eq_ok_iff {signer : Signer} :
    choose kind named (some key) = .ok signer ↔
      (∀ name ∈ named, name = .xOnly key.xOnly ∨ name = .compressed key) ∧
        kind.signer key = signer := by
  simp only [choose, bind_eq_ok_iff, checkAgreement_eq_ok_iff, exists_const, and_congr_right_iff]
  intro hagree
  cases named with
  | none => cases kind <;> simp [taproot?, nativeSegwit?, AddressKind.signer]
  | some name =>
      rcases hagree name rfl with rfl | rfl
      · cases kind <;> simp [taproot?, nativeSegwit?, AddressKind.signer, MessageKey.abscissa]
      · cases kind <;> simp [taproot?, nativeSegwit?, AddressKind.signer, MessageKey.abscissa]

end Signer

end CovenantStaking

import CovenantStaking.Request.Basic

/-!
# Who signs a message

The signer is the key behind an address, in the form that the kind of address holds.
-/

namespace CovenantStaking

/-- The key behind an address. -/
inductive Signer
  /-- The address holds the abscissa itself. -/
  | taproot (key : XOnlyKey)
  /-- The address holds the digest of the compressed key. -/
  | nativeSegwit (key : PublicKey)
  deriving DecidableEq

/-- Whether a key as the host names it is the key it derives. -/
def MessageKey.agrees (named : MessageKey) (derived : PublicKey) : Bool :=
  match named with
  | .xOnly key => key = derived.xOnly
  | .compressed key => key = derived

namespace Signer

/-- Fails if a key is named, another is derived, and they differ. -/
def checkAgreement (named : Option MessageKey) (derived : Option PublicKey) :
    Except Failure Unit :=
  match named, derived with
  | some name, some key => ensure (name.agrees key) (.identity .messageKey)
  | _, _ => .ok ()

/-- The signer of a taproot address: the key named, or else the key derived. -/
def taproot? (named : Option MessageKey) (derived : Option PublicKey) : Except Failure Signer :=
  match named, derived with
  | some name, _ => .ok (taproot name.abscissa)
  | none, some key => .ok (taproot key.xOnly)
  | none, none => .error (.missing .messageKey)

/-- The signer of a native segwit address, which takes a compressed key. -/
def nativeSegwit? (named : Option MessageKey) (derived : Option PublicKey) :
    Except Failure Signer :=
  match named, derived with
  | some (.compressed key), _ => .ok (nativeSegwit key)
  | _, some key => .ok (nativeSegwit key)
  | some (.xOnly _), none => .error (.identity .needsCompressed)
  | none, none => .error (.missing .messageKey)

/-- The signer for a kind of address, from the key that is named and the key that is derived. -/
def choose (kind : AddressKind) (named : Option MessageKey) (derived : Option PublicKey) :
    Except Failure Signer := do
  checkAgreement named derived
  match kind with
  | .taproot => taproot? named derived
  | .nativeSegwit => nativeSegwit? named derived

end Signer

end CovenantStaking

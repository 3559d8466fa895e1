import CovenantStaking.Failure

/-!
# Paths from components and bytes

A path is made of one to ten components, each sent as four bytes, the most significant first.
-/

namespace CovenantStaking.KeyPath

def ofComponents (components : List UInt32) : Except Failure KeyPath :=
  if h : components ≠ [] ∧ components.length ≤ maxDepth then .ok (ofShort components h.2)
  else .error (.path (.depth components.length))

def ofBytes (bytes : Bytes) : Except Failure KeyPath :=
  if bytes = [] ∨ bytes.length % 4 ≠ 0 then .error (.path (.byteLength bytes.length))
  else ofComponents (wordsBy ofBeBytes bytes)

def bytes (path : KeyPath) : Bytes :=
  path.components.flatMap fun c => beBytes 4 c.toNat

/-- The kind of address that the first component selects, hardened or not. -/
def addressKind (path : KeyPath) : Except Failure AddressKind :=
  match path.components with
  | [] => .error (.path .empty)
  | first :: _ =>
    if index first = 84 then .ok .nativeSegwit
    else if index first = 86 then .ok .taproot
    else .error (.unsupported (.purpose (index first)))

end CovenantStaking.KeyPath

namespace CovenantStaking

/-- The host's keys: the public key at a path, or why there is none. -/
abbrev HostKeys := KeyPath → Except Failure PublicKey

/-- The host that holds no keys of its own and sends the staker key instead. -/
def HostKeys.unavailable : HostKeys :=
  fun path => .error (.path (.noDerivation path))

end CovenantStaking

import CovenantStaking.Key.Tweak

/-!
# Backends

What scripts and checks ask for by way of digests and keys. A host may have it done elsewhere, such
as in a secure element; the backend in software is what it is done with otherwise.
-/

namespace CovenantStaking

class Crypto where
  /-- The digest of a payload under a tag. -/
  taggedHash : (tag payload : Bytes) → Octets 32
  /-- The key of the output that hides a tree of scripts behind an internal key, and its parity. -/
  tweak : (internal : XOnlyKey) → (root : TapNode) → Except Failure (XOnlyKey × Parity)
  doubleSha256 : Bytes → Octets 32
  hash160 : Bytes → Octets 20

/-- The backend in software. -/
instance Crypto.software : Crypto where
  taggedHash := CovenantStaking.taggedHash
  tweak := XOnlyKey.tweak
  doubleSha256 := CovenantStaking.doubleSha256
  hash160 := CovenantStaking.hash160

/-- The key of an output that can only be spent by one of its scripts. -/
def TapNode.outputKey [Crypto] (root : TapNode) : Except Failure XOnlyKey := do
  let (key, _) ← Crypto.tweak .unspendable root
  pure key

end CovenantStaking

import CovenantStaking.Hash.Sha256
import CovenantStaking.Hash.Ripemd160

/-!
# Composed digests

The digests that outputs and messages are built from: tagged, doubled and short. A tag keeps the
digests of one use apart from those of another.
-/

namespace CovenantStaking

/-- The digest of a payload under a tag: the tag's own digest, twice, goes before the payload. -/
def taggedHash (tag payload : Bytes) : Octets 32 :=
  let tagDigest := (sha256 tag).bytes
  sha256 (tagDigest ++ tagDigest ++ payload)

def doubleSha256 (data : Bytes) : Octets 32 :=
  sha256 (sha256 data).bytes

/-- The twenty-byte digest of a public key. -/
def hash160 (data : Bytes) : Octets 20 :=
  ripemd160 (sha256 data).bytes

/-! ## Tags -/

def leafTag : Bytes := ascii "TapLeaf"

def branchTag : Bytes := ascii "TapBranch"

def tweakTag : Bytes := ascii "TapTweak"

def messageTag : Bytes := ascii "BIP0322-signed-message"

end CovenantStaking

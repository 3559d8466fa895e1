import CovenantStaking.Bytes.Hex

/-!
# Keys, tree nodes and transaction ids

The byte strings of fixed length that the protocol speaks of, each a type of its own.
-/

namespace CovenantStaking

/-- A public key by its abscissa alone. -/
structure XOnlyKey extends Octets 32
  deriving DecidableEq

/-- A public key as a prefix byte and its abscissa; the content is not checked. -/
structure PublicKey extends Octets 33
  deriving DecidableEq

/-- A node of a tree of scripts: the digest of a leaf, of a branch, or of the whole tree. -/
structure TapNode extends Octets 32
  deriving DecidableEq

/-- A transaction's id, its bytes in the order in which transactions hold them. -/
structure Txid extends Octets 32
  deriving DecidableEq

/-- Which of the two ordinates a key's point has. -/
inductive Parity
  | even
  | odd
  deriving DecidableEq

/-- The first four bytes, enough to tell keys apart by eye. -/
def XOnlyKey.short (key : XOnlyKey) : String :=
  toHex (key.bytes.take 4)

/-- The id as it is shown to people: its bytes in reverse. -/
def Txid.display (id : Txid) : String :=
  toHex id.bytes.reverse

def PublicKey.xOnly (key : PublicKey) : XOnlyKey :=
  ⟨⟨key.bytes.tail, by simp⟩⟩

def PublicKey.form (key : PublicKey) : UInt8 :=
  key.bytes.headD 0

@[ext] theorem XOnlyKey.ext {a b : XOnlyKey} (h : a.bytes = b.bytes) : a = b := by
  cases a; cases b; simpa using Octets.ext h

@[ext] theorem PublicKey.ext {a b : PublicKey} (h : a.bytes = b.bytes) : a = b := by
  cases a; cases b; simpa using Octets.ext h

@[ext] theorem TapNode.ext {a b : TapNode} (h : a.bytes = b.bytes) : a = b := by
  cases a; cases b; simpa using Octets.ext h

@[ext] theorem Txid.ext {a b : Txid} (h : a.bytes = b.bytes) : a = b := by
  cases a; cases b; simpa using Octets.ext h

end CovenantStaking

import CovenantStaking.Crypto
import CovenantStaking.Tapscript.Script

/-!
# Trees of scripts

Leaves, branches, and the two trees of a stake: `(slashing, (unbonding, timelock))` while it is
staked, and `(slashing, timelock)` once it has been unbonded.
-/

namespace CovenantStaking

namespace Tapscript

/-- A length written in one, three or five bytes, as few as hold it. -/
def compactSize (n : Nat) : Bytes :=
  if n < 0xfd then [UInt8.ofNat n]
  else if n ≤ 0xffff then 0xfd :: leBytes 2 n
  else 0xfe :: leBytes 4 n

def leafVersion : UInt8 := 0xc0

/-- What the digest of a leaf is taken of. -/
def leafPayload (script : Bytes) : Bytes :=
  leafVersion :: compactSize script.length ++ script

/-- The leaf that holds a script. -/
def leaf [Crypto] (script : Bytes) : TapNode :=
  ⟨Crypto.taggedHash leafTag (leafPayload script)⟩

end Tapscript

namespace TapNode

/-- What the digest of a branch is taken of: the lesser node goes first. -/
def branchPayload (a b : TapNode) : Bytes :=
  if a.toNat ≤ b.toNat then a.bytes ++ b.bytes else b.bytes ++ a.bytes

/-- The node above two nodes, whichever comes first. -/
def branch [Crypto] (a b : TapNode) : TapNode :=
  ⟨Crypto.taggedHash branchTag (branchPayload a b)⟩

end TapNode

structure StakeLeaves where
  slashing : TapNode
  unbonding : TapNode
  timelock : TapNode
  deriving DecidableEq

namespace StakeLeaves

variable [Crypto]

def stakingRoot (leaves : StakeLeaves) : TapNode :=
  leaves.slashing.branch (leaves.unbonding.branch leaves.timelock)

def unbondedRoot (leaves : StakeLeaves) : TapNode :=
  leaves.slashing.branch leaves.timelock

end StakeLeaves

end CovenantStaking

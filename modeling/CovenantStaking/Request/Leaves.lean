import CovenantStaking.Request.Basic
import CovenantStaking.Tapscript.Tree

/-!
# The scripts a request describes

The scripts, leaves and roots of the stake that a request describes. Each asks for the fields it
needs and no others, in a fixed order.
-/

namespace CovenantStaking.Request

variable [Crypto]

/-- The covenant's keys and a quorum that they can reach. -/
def committee (r : Request) : Except Failure (List XOnlyKey × UInt8) := do
  let keys ← r.requireCovenantKeys
  let quorum ← r.requireQuorum
  ensure (quorum.toNat ≤ keys.length) (.quorum quorum keys.length)
  pure (keys, quorum)

def slashingScript (r : Request) : Except Failure Bytes := do
  let staker ← r.requireStakerKey
  let providers ← r.requireProviders
  let (covenant, quorum) ← r.committee
  pure (Tapscript.slashing staker providers covenant quorum)

def unbondingScript (r : Request) : Except Failure Bytes := do
  let staker ← r.requireStakerKey
  let (covenant, quorum) ← r.committee
  pure (Tapscript.unbonding staker covenant quorum)

def timelockScript (r : Request) : Except Failure Bytes := do
  let staker ← r.requireStakerKey
  let blocks ← r.requireTimelock
  Tapscript.timelock staker blocks

def slashingLeaf (r : Request) : Except Failure TapNode := do
  let script ← r.slashingScript
  pure (Tapscript.leaf script)

def unbondingLeaf (r : Request) : Except Failure TapNode := do
  let script ← r.unbondingScript
  pure (Tapscript.leaf script)

def timelockLeaf (r : Request) : Except Failure TapNode := do
  let script ← r.timelockScript
  pure (Tapscript.leaf script)

/-- All three leaves, or none. -/
def leaves (r : Request) : Except Failure StakeLeaves := do
  let slashing ← r.slashingLeaf
  let unbonding ← r.unbondingLeaf
  let timelock ← r.timelockLeaf
  pure { slashing, unbonding, timelock }

/-- The root that the staked output commits to. -/
def stakingRoot (r : Request) : Except Failure TapNode := do
  let leaves ← r.leaves
  pure leaves.stakingRoot

/-- The root that the unbonded output commits to; the unbonding leaf is not built for it. -/
def unbondedRoot (r : Request) : Except Failure TapNode := do
  let slashing ← r.slashingLeaf
  let timelock ← r.timelockLeaf
  pure (slashing.branch timelock)

end CovenantStaking.Request

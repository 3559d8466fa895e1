import CovenantStaking.Message.ToSpend
import CovenantStaking.Policy.Basic
import CovenantStaking.Request.Leaves
import CovenantStaking.Transaction

/-!
# The rules of each action

What the transaction of a request has to pay, to whom and at what fee. A stake's outputs can be
spent by scripts alone: their key is the unspendable key, tweaked by the root of the scripts.
-/

namespace CovenantStaking

variable [Crypto]

/-! ## Outputs that commit to scripts -/

/-- Whether a script is that of an output that holds a key, whatever the key. -/
def IsTaproot (script : Bytes) : Prop :=
  script.length = 34 ∧ script.take 2 = [Opcode.one, Opcode.push32]

instance (script : Bytes) : Decidable (IsTaproot script) :=
  inferInstanceAs (Decidable (_ ∧ _))

namespace Transaction

/-- Fails unless the output at `index` holds the key; `role` says what the output is for. -/
def checkOutputKey (tx : Transaction) (index : Nat) (key : XOnlyKey) (role : String) :
    Except Failure Unit := do
  let output ← tx.output index
  ensure (IsTaproot output.script) (.script (.notTaproot index role))
  ensure (output.script = key.outputScript) (.script (.otherScripts index role))

/-- Fails unless the output at `index` commits to the scripts under `root`. -/
def checkCommitment (tx : Transaction) (index : Nat) (root : TapNode) (role : String) :
    Except Failure Unit := do
  let key ← root.outputKey
  tx.checkOutputKey index key role

end Transaction

/-! ## Rules -/

namespace Request

/-- The first output holds the stake. -/
def checkStaking (r : Request) (tx : Transaction) : Except Failure Unit := do
  let root ← r.stakingRoot
  tx.checkCommitment 0 root "staking"

/-- Fails unless the first output pays the burn address, out of reach where the network demands
it. -/
def checkBurn (policy : Policy) (burnAddress : Bytes) (tx : Transaction) :
    Except Failure Unit := do
  let output ← tx.output 0
  ensure (output.script = burnAddress) (.script .otherBurnAddress)
  ensure (policy.network.demandsUnspendableBurn → output.script.head? = some Opcode.returns)
    (.script .spendableBurn)

/-- The first output burns coins, the second returns the rest to the staker after the lock, and the
fee is at least the limit. -/
def checkSlashing (r : Request) (policy : Policy) (tx : Transaction) : Except Failure UInt64 := do
  let limit ← present r.slashingFeeLimit .slashingFeeLimit
  policy.checkLimit .slashing limit
  let burnAddress ← present r.burnAddress .burnAddress
  let fee ← tx.fee
  ensure (limit ≤ fee) (.fee (.slashingBelow fee limit))
  let leaf ← r.timelockLeaf
  tx.checkCommitment 1 leaf "slashing change"
  checkBurn policy burnAddress tx
  pure fee

/-- The first output holds the unbonded stake, and the fee is exactly the limit. -/
def checkUnbond (r : Request) (policy : Policy) (tx : Transaction) : Except Failure UInt64 := do
  let limit ← present r.unbondingFeeLimit .unbondingFeeLimit
  policy.checkLimit .unbonding limit
  let fee ← tx.fee
  ensure (fee = limit) (.fee (.unbondingDiffers fee limit))
  let root ← r.unbondedRoot
  tx.checkCommitment 0 root "unbonding"
  pure fee

/-- The first output holds the larger stake, the first input spends the previous one by its
unbonding leaf, and the second names no leaf. -/
def checkExpansion (r : Request) (tx : Transaction) : Except Failure TapNode := do
  let leaves ← r.leaves
  tx.checkCommitment 0 leaves.stakingRoot "expanded staking"
  let previous ← tx.input 0
  ensure (previous.leaf = some leaves.unbonding) (.script .otherLeaf)
  let funding ← tx.input 1
  ensure (funding.leaf = none) (.script .scriptFunding)
  pure leaves.unbonding

/-- The first input spends the transaction that stands for the message and the signer. -/
def checkMessage (r : Request) (signer : Signer) (tx : Transaction) : Except Failure Txid := do
  let message ← present r.message .message
  let id ← toSpendId message signer
  let input ← tx.input 0
  ensure (id = input.txid) (.identity .otherSpend)
  ensure (∀ sent ∈ r.txid, sent = id) (.identity .otherTxid)
  pure id

end Request

end CovenantStaking

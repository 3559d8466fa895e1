import CovenantStaking.Message.Signer
import CovenantStaking.Tapscript.Script

/-!
# Terms of an action

An action together with exactly the fields it needs, none of them optional.
-/

namespace CovenantStaking

/-- The fields that the scripts of a stake are made of. -/
structure StakeTerms where
  staker : XOnlyKey
  finalityProviders : List XOnlyKey
  covenantKeys : List XOnlyKey
  covenantQuorum : UInt8
  timelock : UInt64
  deriving DecidableEq

/-- What a request asks to approve. -/
inductive Terms
  | staking (stake : StakeTerms)
  | expansion (stake : StakeTerms)
  | unbond (stake : StakeTerms) (feeLimit : UInt64)
  /-- `fromUnbonding` tells the loss of an unbonded stake from that of a stake. -/
  | slashing (stake : StakeTerms) (feeLimit : UInt64) (burnAddress : Bytes) (fromUnbonding : Bool)
  | withdraw
  | signMessage (message : Bytes) (kind : AddressKind) (signer : Signer)
  deriving DecidableEq

def Terms.action : Terms → Action
  | staking _ => .staking
  | expansion _ => .expansion
  | unbond _ _ => .unbond
  | slashing _ _ _ fromUnbonding => if fromUnbonding then .slashingUnbonding else .slashing
  | withdraw => .withdraw
  | signMessage _ _ _ => .signMessage

namespace Request

def stakeTerms (r : Request) : Except Failure StakeTerms := do
  let covenantKeys ← r.requireCovenantKeys
  let covenantQuorum ← r.requireQuorum
  ensure (covenantQuorum.toNat ≤ covenantKeys.length)
    (.quorum covenantQuorum covenantKeys.length)
  let timelock ← r.requireTimelock
  Tapscript.ensureLockable timelock
  let staker ← r.requireStakerKey
  let finalityProviders ← r.requireProviders
  pure { staker, finalityProviders, covenantKeys, covenantQuorum, timelock }

def slashingTerms (r : Request) (fromUnbonding : Bool) : Except Failure Terms := do
  let stake ← r.stakeTerms
  let limit ← present r.slashingFeeLimit .slashingFeeLimit
  let burnAddress ← present r.burnAddress .burnAddress
  pure (.slashing stake limit burnAddress fromUnbonding)

def unbondTerms (r : Request) : Except Failure Terms := do
  let stake ← r.stakeTerms
  let limit ← present r.unbondingFeeLimit .unbondingFeeLimit
  pure (.unbond stake limit)

def messageTerms (r : Request) (derived : Option PublicKey) : Except Failure Terms := do
  let path ← present r.derivationPath .derivationPath
  let kind ← path.addressKind
  let message ← present r.message .message
  let signer ← Signer.choose kind r.messageKey derived
  pure (.signMessage message kind signer)

/-- The terms of a request; `derived` is the key at its derivation path, if it has one. -/
def terms (r : Request) (derived : Option PublicKey) : Except Failure Terms := do
  match ← r.requireAction with
  | .staking => .staking <$> r.stakeTerms
  | .expansion => .expansion <$> r.stakeTerms
  | .unbond => r.unbondTerms
  | .slashing => r.slashingTerms false
  | .slashingUnbonding => r.slashingTerms true
  | .withdraw => pure .withdraw
  | .signMessage => r.messageTerms derived

end Request

end CovenantStaking

import CovenantStaking.Action
import CovenantStaking.KeyPath.Basic
import CovenantStaking.Session.Stage

/-!
# Why a step fails

Every cause of failure, grouped by kind, and the one place where causes are put into words.
-/

namespace CovenantStaking

/-- The fields of a request, by which missing ones are named. -/
inductive Field
  | action
  | finalityProviders
  | covenantKeys
  | covenantQuorum
  | stakerKey
  | timelock
  | slashingFeeLimit
  | unbondingFeeLimit
  | burnAddress
  | message
  | messageKey
  | derivationPath
  deriving DecidableEq

def Field.name : Field → String
  | .action => "action"
  | .finalityProviders => "finality_providers"
  | .covenantKeys => "covenant_keys"
  | .covenantQuorum => "covenant_quorum"
  | .stakerKey => "staker_key"
  | .timelock => "timelock"
  | .slashingFeeLimit => "slashing_fee_limit"
  | .unbondingFeeLimit => "unbonding_fee_limit"
  | .burnAddress => "burn_address"
  | .message => "message"
  | .messageKey => "message_key"
  | .derivationPath => "derivation_path"

/-! ## Causes by kind -/

inductive BlobFault
  /-- Bytes are left at `offset`, but too few for a header. -/
  | truncatedHeader (offset : Nat)
  | truncatedValue (tag : UInt8) (declared remaining : Nat)
  | invalidLength (tag : UInt8) (length : Nat)
  | unknownTag (tag : UInt8)
  | duplicateTag (tag : UInt8)
  | tooManyKeys (tag : UInt8) (count most : Nat)
  /-- A count record disagrees with the list it announces. -/
  | countMismatch (field : Field) (declared actual : Nat)
  deriving DecidableEq

inductive StructureFault
  | noOutput (index : Nat)
  | noInput (index : Nat)
  | inputsOverflow
  | outputsOverflow
  | inputCount (action : Action) (found : Nat)
  | outputCount (action : Action) (least found : Nat)
  deriving DecidableEq

inductive ScriptFault
  | noPush
  | shortPush (length : Nat)
  /-- A pushed number does not fit a signed word of 64 bits. -/
  | widePush
  | notAPush (opcode : UInt8)
  /-- The output in this role does not hold a taproot key. -/
  | notTaproot (index : Nat) (role : String)
  /-- The output in this role holds a taproot key of other scripts. -/
  | otherScripts (index : Nat) (role : String)
  | otherBurnAddress
  /-- The burned coins could still be spent. -/
  | spendableBurn
  /-- The stake is not spent by its unbonding script. -/
  | otherLeaf
  /-- The added coins come from a script path. -/
  | scriptFunding
  deriving DecidableEq

/-- The fee limits a request can carry. -/
inductive FeeLimit
  | slashing
  | unbonding
  deriving DecidableEq

/-- How a transaction's fee breaks the policy. -/
inductive FeeFault
  | overspent (outputs inputs : UInt64)
  /-- The request's limit is outside what the policy accepts. -/
  | limitOutside (limit : FeeLimit) (value min max : UInt64)
  | slashingBelow (fee limit : UInt64)
  | unbondingDiffers (fee limit : UInt64)
  deriving DecidableEq

inductive IdentityFault
  /-- The staker key sent is not the one at the path sent. -/
  | stakerKey (sent : XOnlyKey) (path : KeyPath)
  | messageKey
  /-- A native segwit address cannot be told from an abscissa. -/
  | needsCompressed
  /-- The first input does not spend the message's own transaction. -/
  | otherSpend
  | otherTxid
  deriving DecidableEq

inductive UnsupportedFault
  | actionCode (code : UInt8)
  | purpose (index : Nat)
  deriving DecidableEq

/-- The parts of the key sets that an approval pins. -/
inductive KeySetPart
  | finalityProviders
  | covenantKeys
  | covenantQuorum
  deriving DecidableEq

inductive PathFault
  | depth (found : Nat)
  | byteLength (found : Nat)
  | empty
  /-- The host holds no keys of its own. -/
  | noDerivation (path : KeyPath)
  /-- The host gives a reason of its own. -/
  | refused (reason : String)
  deriving DecidableEq

inductive CryptoFault
  | hex (fault : HexFault)
  | invalidPublicKey
  | internalKeyOffCurve (key : XOnlyKey)
  | tweakAboveOrder
  | tweakedToInfinity
  | messageTooLong
  deriving DecidableEq

inductive StageFault
  | alreadyVerified
  | verifyIn (stage : Stage)
  deriving DecidableEq

/-- Why a step fails: the kind, and within it the cause. -/
inductive Failure
  | malformed (fault : BlobFault)
  | missing (field : Field)
  | structural (fault : StructureFault)
  | script (fault : ScriptFault)
  | fee (fault : FeeFault)
  | identity (fault : IdentityFault)
  | unsupported (fault : UnsupportedFault)
  | timelock (blocks : UInt64)
  | quorum (needed : UInt8) (keys : Nat)
  | keySet (changed : KeySetPart)
  | path (fault : PathFault)
  | stage (fault : StageFault)
  | crypto (fault : CryptoFault)
  /-- The policy's fee limit bounds are the wrong way round. -/
  | invertedBounds (min max : UInt64)
  | file
  /-- A text is not the JSON form of the value it should hold. -/
  | json
  deriving DecidableEq

/-! ## Wording -/

/-- A byte with its marker, in two digits. -/
def byteText (b : UInt8) : String :=
  "0x" ++ String.ofList (hexDigits b)

def BlobFault.message : BlobFault → String
  | truncatedHeader offset => s!"truncated record header at offset {offset}"
  | truncatedValue tag declared remaining =>
    let tag := byteText tag
    s!"tag {tag} declares {declared} bytes but only {remaining} remain"
  | invalidLength tag length =>
    let tag := byteText tag
    s!"tag {tag} has invalid length {length}"
  | unknownTag tag => "unknown tag " ++ byteText tag
  | duplicateTag tag =>
    let tag := byteText tag
    s!"tag {tag} appears more than once"
  | tooManyKeys tag count most =>
    let tag := byteText tag
    s!"tag {tag} carries {count} keys (max {most})"
  | countMismatch field declared actual =>
    let field := field.name
    s!"{field}: count record says {declared}, list holds {actual}"

def StructureFault.message : StructureFault → String
  | noOutput index => s!"no output at index {index}"
  | noInput index => s!"no input at index {index}"
  | inputsOverflow => "input amounts overflow"
  | outputsOverflow => "output amounts overflow"
  | inputCount action found =>
    let action := action.name
    s!"{action} cannot spend {found} inputs"
  | outputCount action least found =>
    let action := action.name
    s!"{action} needs at least {least} outputs, found {found}"

def ScriptFault.message : ScriptFault → String
  | noPush => "expected a number push"
  | shortPush length => s!"number push of {length} bytes is truncated"
  | widePush => "number push out of range"
  | notAPush opcode =>
    let opcode := byteText opcode
    s!"opcode {opcode} is not a number push"
  | notTaproot index role => s!"output {index} ({role}) is not a taproot output"
  | otherScripts index role => s!"output {index} ({role}) does not commit to the expected scripts"
  | otherBurnAddress => "output 0 does not pay the burn address"
  | spendableBurn => "burn output must be OP_RETURN on mainnet"
  | otherLeaf => "input 0 must spend the previous stake through the unbonding leaf"
  | scriptFunding => "input 1 must be a plain funding output"

def FeeLimit.name : FeeLimit → String
  | slashing => "slashing"
  | unbonding => "unbonding"

def FeeFault.message : FeeFault → String
  | overspent outputs inputs => s!"outputs ({outputs} sats) exceed inputs ({inputs} sats)"
  | limitOutside limit value min max =>
    let limit := limit.name
    s!"{limit} fee limit {value} outside {min}..={max}"
  | slashingBelow fee limit => s!"slashing fee {fee} is below the limit {limit}"
  | unbondingDiffers fee limit => s!"unbonding fee {fee} must equal {limit}"

def IdentityFault.message : IdentityFault → String
  | stakerKey sent path =>
    let sent := sent.short
    let path := path.text
    s!"staker key {sent} is not the key at {path}"
  | messageKey => "message key differs from the derived key"
  | needsCompressed => "a P2WPKH signer needs a compressed key"
  | otherSpend => "input 0 does not spend the message's to_spend transaction"
  | otherTxid => "txid record does not match the message"

def UnsupportedFault.message : UnsupportedFault → String
  | actionCode code => s!"action code {code}"
  | purpose index => s!"derivation purpose {index}"

def KeySetPart.name : KeySetPart → String
  | finalityProviders => "finality providers"
  | covenantKeys => "covenant keys"
  | covenantQuorum => "covenant quorum"

def PathFault.message : PathFault → String
  | depth found =>
    let most := KeyPath.maxDepth
    s!"depth {found} outside 1..={most}"
  | byteLength found => s!"length {found} is not a positive multiple of 4"
  | empty => "empty path"
  | noDerivation path => "no key derivation available for " ++ path.text
  | refused reason => reason

def CryptoFault.message : CryptoFault → String
  | hex fault => fault.message
  | invalidPublicKey => "Invalid public key: crypto error"
  | internalKeyOffCurve key =>
    let key := key.short
    s!"internal key {key} is not on the curve"
  | tweakAboveOrder => "tweak exceeds the curve order"
  | tweakedToInfinity => "tweaked key is the point at infinity"
  | messageTooLong => "bech32 encoding failed: encode error"

def StageFault.message : StageFault → String
  | alreadyVerified => "session already verified"
  | verifyIn stage => "verify called in state " ++ stage.name

/-- The cause in words. The last two kinds leave the words to the file system and to the reader of
JSON. -/
def Failure.message : Failure → String
  | malformed fault => "Parse error: " ++ fault.message
  | missing field => "Missing field: " ++ field.name
  | structural fault => "Structural mismatch: " ++ fault.message
  | script fault => "Script mismatch: " ++ fault.message
  | fee fault => "Fee policy violation: " ++ fault.message
  | identity fault => "Identity mismatch: " ++ fault.message
  | unsupported fault => "Unsupported action: " ++ fault.message
  | timelock blocks => s!"Invalid timelock: {blocks}"
  | quorum needed keys => s!"Invalid covenant quorum {needed} for {keys} keys"
  | keySet changed =>
    let changed := changed.name
    s!"Key set mismatch: {changed} changed since approval"
  | path fault => "Invalid derivation path: " ++ fault.message
  | stage fault => "Invalid state: " ++ fault.message
  | crypto fault => "Cryptographic error: " ++ fault.message
  | invertedBounds min max =>
    s!"Configuration error: fee limit bounds are inverted ({min} > {max})"
  | file => "IO error"
  | json => "JSON error"

/-! ## Checks -/

/-- Fails for a cause unless a condition holds. -/
def ensure (condition : Prop) [Decidable condition] (cause : Failure) : Except Failure Unit :=
  if condition then .ok () else .error cause

/-- The value of a field, which must be present. -/
def present {α : Type} (value : Option α) (field : Field) : Except Failure α :=
  match value with
  | some a => .ok a
  | none => .error (.missing field)

@[simp] theorem ensure_eq_ok_iff {c : Prop} [Decidable c] {cause : Failure} {u : Unit} :
    ensure c cause = .ok u ↔ c := by
  simp [ensure]

@[simp] theorem present_eq_ok_iff {α : Type} {value : Option α} {field : Field} {a : α} :
    present value field = .ok a ↔ value = some a := by
  cases value <;> simp [present]

end CovenantStaking

import CovenantStaking.Proofs.Message.Signer
import CovenantStaking.Proofs.Request.Stake
import CovenantStaking.Proofs.Transaction.Balance

/-!
# What the rules of an action ask

The rules check outputs, fee limits and leaves step by step. Here each of these steps is put as a
condition on the transaction, the policy and the stake alone.
-/

namespace CovenantStaking

/-! ## Inputs -/

namespace Transaction

variable {tx : Transaction} {index : Nat}

/-- There is an input at `index`, and `leaf` is the leaf that it names, if any. -/
def SpendsBy (tx : Transaction) (index : Nat) (leaf : Option TapNode) : Prop :=
  tx.inputs[index]?.map Input.leaf = some leaf

instance (tx : Transaction) (index : Nat) (leaf : Option TapNode) :
    Decidable (tx.SpendsBy index leaf) :=
  inferInstanceAs (Decidable (_ = _))

theorem input_eq_ok_iff {input : Input} :
    tx.input index = .ok input ↔ tx.inputs[index]? = some input := by
  unfold Transaction.input
  cases tx.inputs[index]? with
  | none => simp
  | some found => simp

theorem spendsBy_iff {leaf : Option TapNode} :
    tx.SpendsBy index leaf ↔ ∃ input, tx.input index = .ok input ∧ input.leaf = leaf := by
  simp only [SpendsBy, Option.map_eq_some_iff, input_eq_ok_iff]

/-- There is an input at `index`, and it spends an output of the transaction with this id. -/
def Spends (tx : Transaction) (index : Nat) (id : Txid) : Prop :=
  tx.inputs[index]?.map Input.txid = some id

theorem spends_iff {id : Txid} :
    tx.Spends index id ↔ ∃ input, tx.input index = .ok input ∧ input.txid = id := by
  simp only [Spends, Option.map_eq_some_iff, input_eq_ok_iff]

end Transaction

/-! ## Outputs -/

namespace Transaction

variable {tx : Transaction} {index : Nat}

/-- There is an output at `index`, and `script` guards it. -/
def PaysTo (tx : Transaction) (index : Nat) (script : Bytes) : Prop :=
  tx.outputs[index]?.map Output.script = some script

instance (tx : Transaction) (index : Nat) (script : Bytes) : Decidable (tx.PaysTo index script) :=
  inferInstanceAs (Decidable (_ = _))

theorem output_eq_ok_iff {output : Output} :
    tx.output index = .ok output ↔ tx.outputs[index]? = some output := by
  unfold Transaction.output
  cases tx.outputs[index]? with
  | none => simp
  | some found => simp

theorem paysTo_iff {script : Bytes} :
    tx.PaysTo index script ↔ ∃ output, tx.output index = .ok output ∧ output.script = script := by
  simp only [PaysTo, Option.map_eq_some_iff, output_eq_ok_iff]

end Transaction

/-- The script of a key's output is a taproot script, so the form need not be asked for apart. -/
theorem XOnlyKey.outputScript_isTaproot (key : XOnlyKey) : IsTaproot key.outputScript :=
  ⟨key.outputScript_length, rfl⟩

namespace Transaction

variable {tx : Transaction} {index : Nat}

theorem checkOutputKey_eq_ok_iff {key : XOnlyKey} {role : String} {u : Unit} :
    tx.checkOutputKey index key role = .ok u ↔ tx.PaysTo index key.outputScript := by
  simp only [checkOutputKey, bind_eq_ok_iff, ensure_eq_ok_iff, exists_const, paysTo_iff]
  constructor
  · rintro ⟨output, hfound, _, hscript⟩
    exact ⟨output, hfound, hscript⟩
  · rintro ⟨output, hfound, hscript⟩
    exact ⟨output, hfound, hscript ▸ key.outputScript_isTaproot, hscript⟩

/-- The output at `index` holds the unspendable key, tweaked by `root`. -/
def CommitsTo [Crypto] (tx : Transaction) (index : Nat) (root : TapNode) : Prop :=
  ∃ key parity, Crypto.tweak .unspendable root = .ok (key, parity) ∧
    tx.PaysTo index (0x51 :: 0x20 :: key.bytes)

theorem checkCommitment_eq_ok_iff [Crypto] {root : TapNode} {role : String} {u : Unit} :
    tx.checkCommitment index root role = .ok u ↔ tx.CommitsTo index root := by
  simp only [checkCommitment, TapNode.outputKey, bind_eq_ok_iff, pure_eq_ok_iff, Prod.exists,
    checkOutputKey_eq_ok_iff]
  constructor
  · rintro ⟨_, ⟨key, parity, htweak, rfl⟩, hpays⟩
    exact ⟨key, parity, htweak, hpays⟩
  · rintro ⟨key, parity, htweak, hpays⟩
    exact ⟨key, ⟨key, parity, htweak, rfl⟩, hpays⟩

theorem checkShape_eq_ok_iff {action : Action} {u : Unit} :
    tx.checkShape action = .ok u ↔
      action.allowsInputs tx.inputs.length ∧ action.leastOutputs ≤ tx.outputs.length := by
  simp only [checkShape, bind_eq_ok_iff, ensure_eq_ok_iff, exists_const]

end Transaction

/-! ## Fee limits -/

/-- The bounds of the policy, if it has any, admit a fee limit. -/
def Policy.Admits (policy : Policy) (limit : UInt64) : Prop :=
  ∀ bounds ∈ policy.feeBounds, bounds.min ≤ limit ∧ limit ≤ bounds.max

theorem Policy.checkLimit_eq_ok_iff {policy : Policy} {name : FeeLimit} {limit : UInt64}
    {u : Unit} : policy.checkLimit name limit = .ok u ↔ policy.Admits limit := by
  unfold checkLimit Admits
  cases policy.feeBounds with
  | none => simp
  | some bounds => simp [FeeBounds.contains]

namespace Request

variable {r : Request} {tx : Transaction} {policy : Policy} {stake : StakeTerms}

/-! ## Staking -/

theorem checkStaking_eq_ok_iff [Crypto] {u : Unit} (hstake : r.Describes stake)
    (hstaker : r.stakerKey = some stake.staker) :
    r.checkStaking tx = .ok u ↔ tx.CommitsTo 0 stake.leaves.stakingRoot := by
  simp only [checkStaking, stakingRoot, hstake.leaves_eq hstaker, bind_eq_ok_iff, pure_eq_ok_iff,
    Except.ok.injEq, exists_eq_left', Transaction.checkCommitment_eq_ok_iff]

/-- The new stake is checked as any other; beyond that the rules of an expansion are about the
leaves that its inputs name. -/
theorem checkExpansion_eq_ok_iff [Crypto] {leaf : TapNode} (hstake : r.Describes stake)
    (hstaker : r.stakerKey = some stake.staker) :
    r.checkExpansion tx = .ok leaf ↔ tx.CommitsTo 0 stake.leaves.stakingRoot ∧
      tx.SpendsBy 0 (some stake.leaves.unbonding) ∧ tx.SpendsBy 1 none ∧
      leaf = stake.leaves.unbonding := by
  simp only [checkExpansion, hstake.leaves_eq hstaker, bind_eq_ok_iff, pure_eq_ok_iff,
    Except.ok.injEq, exists_eq_left', Transaction.checkCommitment_eq_ok_iff, ensure_eq_ok_iff,
    exists_const, Transaction.spendsBy_iff]
  constructor
  · rintro ⟨houtput, previous, hprevious, hleaf, funding, hfunding, hplain, rfl⟩
    exact ⟨houtput, ⟨previous, hprevious, hleaf⟩, ⟨funding, hfunding, hplain⟩, rfl⟩
  · rintro ⟨houtput, ⟨previous, hprevious, hleaf⟩, ⟨funding, hfunding, hplain⟩, rfl⟩
    exact ⟨houtput, previous, hprevious, hleaf, funding, hfunding, hplain, rfl⟩

/-! ## Slashing -/

/-- Coins that are burned go to the burn address, and on the main network nobody can have them. -/
structure Burns (tx : Transaction) (network : Network) (burnAddress : Bytes) : Prop where
  paid : tx.PaysTo 0 burnAddress
  unspendable : network = .mainnet → burnAddress.head? = some 0x6a

theorem checkBurn_eq_ok_iff {burnAddress : Bytes} {u : Unit} :
    checkBurn policy burnAddress tx = .ok u ↔ Burns tx policy.network burnAddress := by
  simp only [checkBurn, bind_eq_ok_iff, ensure_eq_ok_iff, exists_const,
    Network.demandsUnspendableBurn, decide_eq_true_eq]
  constructor
  · rintro ⟨output, hfound, rfl, hreturns⟩
    exact ⟨Transaction.paysTo_iff.mpr ⟨output, hfound, rfl⟩, hreturns⟩
  · rintro ⟨hpaid, hreturns⟩
    obtain ⟨output, hfound, rfl⟩ := Transaction.paysTo_iff.mp hpaid
    exact ⟨output, hfound, rfl, hreturns⟩

/-- With the stake known, the rules of a slashing are about its fee, its change and its burned
coins. -/
theorem checkSlashing_eq_ok_iff [Crypto] {fee : UInt64} (hstake : r.Describes stake)
    (hstaker : r.stakerKey = some stake.staker) :
    r.checkSlashing policy tx = .ok fee ↔ ∃ limit burnAddress,
      r.slashingFeeLimit = some limit ∧ r.burnAddress = some burnAddress ∧
      policy.Admits limit ∧ tx.Balances fee ∧ limit ≤ fee ∧
      tx.CommitsTo 1 (Tapscript.leaf (Tapscript.lockedSpend stake.staker stake.timelock)) ∧
      Burns tx policy.network burnAddress := by
  simp only [checkSlashing, bind_eq_ok_iff, present_eq_ok_iff, Policy.checkLimit_eq_ok_iff,
    Transaction.fee_eq_ok_iff, ensure_eq_ok_iff, hstake.timelockLeaf_eq hstaker, Except.ok.injEq,
    Transaction.checkCommitment_eq_ok_iff, checkBurn_eq_ok_iff, exists_const, pure_eq_ok_iff]
  constructor
  · rintro ⟨limit, hlimit, hadmits, burnAddress, hburn, _, hfee, hle, _, rfl, hchange, hburns,
      rfl⟩
    exact ⟨limit, burnAddress, hlimit, hburn, hadmits, hfee, hle, hchange, hburns⟩
  · rintro ⟨limit, burnAddress, hlimit, hburn, hadmits, hfee, hle, hchange, hburns⟩
    exact ⟨limit, hlimit, hadmits, burnAddress, hburn, fee, hfee, hle, _, rfl, hchange, hburns,
      rfl⟩

theorem slashingTerms_eq_ok_iff {fromUnbonding : Bool} {terms : Terms} :
    r.slashingTerms fromUnbonding = .ok terms ↔ ∃ stake limit burnAddress,
      r.stakeTerms = .ok stake ∧ r.slashingFeeLimit = some limit ∧
      r.burnAddress = some burnAddress ∧
      terms = .slashing stake limit burnAddress fromUnbonding := by
  simp only [slashingTerms, bind_eq_ok_iff, present_eq_ok_iff, pure_eq_ok_iff]
  constructor
  · rintro ⟨stake, hstake, limit, hlimit, burnAddress, hburn, rfl⟩
    exact ⟨stake, limit, burnAddress, hstake, hlimit, hburn, rfl⟩
  · rintro ⟨stake, limit, burnAddress, hstake, hlimit, hburn, rfl⟩
    exact ⟨stake, hstake, limit, hlimit, burnAddress, hburn, rfl⟩

/-! ## Unbonding -/

/-- With the stake known, the rules of an unbonding are about its fee, which is the limit itself,
and about its output, from which the unbonding script is missing. -/
theorem checkUnbond_eq_ok_iff [Crypto] {fee : UInt64} (hstake : r.Describes stake)
    (hstaker : r.stakerKey = some stake.staker) :
    r.checkUnbond policy tx = .ok fee ↔
      r.unbondingFeeLimit = some fee ∧ policy.Admits fee ∧ tx.Balances fee ∧
        tx.CommitsTo 0 (stake.leaves.slashing.branch stake.leaves.timelock) := by
  simp only [checkUnbond, bind_eq_ok_iff, present_eq_ok_iff, Policy.checkLimit_eq_ok_iff,
    Transaction.fee_eq_ok_iff, ensure_eq_ok_iff, hstake.unbondedRoot_eq hstaker, Except.ok.injEq,
    Transaction.checkCommitment_eq_ok_iff, exists_const, pure_eq_ok_iff]
  constructor
  · rintro ⟨_, hlimit, hadmits, _, hfee, rfl, _, rfl, houtput, rfl⟩
    exact ⟨hlimit, hadmits, hfee, houtput⟩
  · rintro ⟨hlimit, hadmits, hfee, houtput⟩
    exact ⟨fee, hlimit, hadmits, fee, hfee, rfl, _, rfl, houtput, rfl⟩

theorem unbondTerms_eq_ok_iff {terms : Terms} :
    r.unbondTerms = .ok terms ↔ ∃ stake limit, r.stakeTerms = .ok stake ∧
      r.unbondingFeeLimit = some limit ∧ terms = .unbond stake limit := by
  simp only [unbondTerms, bind_eq_ok_iff, present_eq_ok_iff, pure_eq_ok_iff]
  constructor
  · rintro ⟨stake, hstake, limit, hlimit, rfl⟩
    exact ⟨stake, limit, hstake, hlimit, rfl⟩
  · rintro ⟨stake, limit, hstake, hlimit, rfl⟩
    exact ⟨stake, hstake, limit, hlimit, rfl⟩

/-! ## Messages -/

theorem checkMessage_eq_ok_iff [Crypto] {signer : Signer} {id : Txid} :
    r.checkMessage signer tx = .ok id ↔ ∃ message, r.message = some message ∧
      toSpendId message signer = .ok id ∧ tx.Spends 0 id ∧ ∀ sent ∈ r.txid, sent = id := by
  simp only [checkMessage, bind_eq_ok_iff, present_eq_ok_iff, ensure_eq_ok_iff, exists_const,
    pure_eq_ok_iff, Transaction.spends_iff]
  constructor
  · rintro ⟨message, hmessage, _, hid, input, hinput, rfl, hsent, rfl⟩
    exact ⟨message, hmessage, hid, ⟨input, hinput, rfl⟩, hsent⟩
  · rintro ⟨message, hmessage, hid, ⟨input, hinput, rfl⟩, hsent⟩
    exact ⟨message, hmessage, _, hid, input, hinput, rfl, hsent, rfl⟩

theorem messageTerms_eq_ok_iff {derived : Option PublicKey} {terms : Terms} :
    r.messageTerms derived = .ok terms ↔ ∃ path kind message signer,
      r.derivationPath = some path ∧ path.addressKind = .ok kind ∧ r.message = some message ∧
      Signer.choose kind r.messageKey derived = .ok signer ∧
      terms = .signMessage message kind signer := by
  simp only [messageTerms, bind_eq_ok_iff, present_eq_ok_iff, pure_eq_ok_iff]
  constructor
  · rintro ⟨path, hpath, kind, hkind, message, hmessage, signer, hsigner, rfl⟩
    exact ⟨path, kind, message, signer, hpath, hkind, hmessage, hsigner, rfl⟩
  · rintro ⟨path, kind, message, signer, hpath, hkind, hmessage, hsigner, rfl⟩
    exact ⟨path, hpath, kind, hkind, message, hmessage, signer, hsigner, rfl⟩

/-! ## The action -/

theorem action_of_terms {derived : Option PublicKey} {terms : Terms}
    (h : r.terms derived = .ok terms) : r.action = some terms.action := by
  simp only [Request.terms, requireAction, bind_eq_ok_iff, present_eq_ok_iff] at h
  obtain ⟨action, haction, h⟩ := h
  rw [haction]
  cases action with
  | staking | expansion =>
      obtain ⟨stake, -, rfl⟩ := map_eq_ok_iff.mp h
      rfl
  | unbond =>
      obtain ⟨stake, limit, -, -, rfl⟩ := unbondTerms_eq_ok_iff.mp h
      rfl
  | slashing | slashingUnbonding =>
      obtain ⟨stake, limit, burnAddress, -, -, -, rfl⟩ := slashingTerms_eq_ok_iff.mp h
      rfl
  | withdraw =>
      cases pure_eq_ok_iff.mp h
      rfl
  | signMessage =>
      obtain ⟨path, kind, message, signer, -, -, -, -, rfl⟩ := messageTerms_eq_ok_iff.mp h
      rfl

end Request

end CovenantStaking

import CovenantStaking.Proofs.Request.Roots
import CovenantStaking.Proofs.Session.Approval

/-!
# Staking sessions

The conditions under which a session approves that coins are locked in a stake, be it a new one or
a larger one in the place of another.
-/

namespace CovenantStaking

variable {action : Action}

/-! ## The action and its terms -/

def Action.locksStake : Action → Bool
  | staking | expansion => true
  | unbond | slashing | slashingUnbonding | withdraw | signMessage => false

def Terms.locking (action : Action) (stake : StakeTerms) : Terms :=
  if action = .expansion then .expansion stake else .staking stake

theorem Action.leastOutputs_of_locksStake (h : action.locksStake) : action.leastOutputs = 1 := by
  cases action with
  | staking | expansion => rfl
  | unbond | slashing | slashingUnbonding | withdraw | signMessage => cases h

theorem Action.warnsOfFee_of_locksStake (h : action.locksStake) : action.warnsOfFee = true := by
  cases action with
  | staking | expansion => rfl
  | unbond | slashing | slashingUnbonding | withdraw | signMessage => cases h

theorem Action.not_isSlashing_of_locksStake (h : action.locksStake) : ¬action.isSlashing := by
  cases action with
  | staking | expansion => exact Bool.false_ne_true
  | unbond | slashing | slashingUnbonding | withdraw | signMessage => cases h

theorem Terms.action_locking (h : action.locksStake) (stake : StakeTerms) :
    (locking action stake).action = action := by
  cases action with
  | staking | expansion => rfl
  | unbond | slashing | slashingUnbonding | withdraw | signMessage => cases h

/-- The inputs of an expansion: the previous stake, spent by the unbonding leaf, and the coins that
are added to it. -/
structure Transaction.Expands [Crypto] (tx : Transaction) (stake : StakeTerms) : Prop where
  inputs : tx.inputs.length = 2
  previous : tx.SpendsBy 0 (some stake.leaves.unbonding)
  funding : tx.SpendsBy 1 none

/-- The leaf to sign under when coins are locked: an older stake is spent by its unbonding script,
other coins by their own keys. -/
def StakeTerms.lockingLeaf [Crypto] (stake : StakeTerms) (action : Action) : Option TapNode :=
  if action = .expansion then some stake.leaves.unbonding else none

namespace Request

variable {r : Request} {tx : Transaction} {policy : Policy} {stake : StakeTerms}

theorem terms_of_locksStake (haction : r.action = some action) (hlocks : action.locksStake)
    (derived : Option PublicKey) : r.terms derived = Terms.locking action <$> r.stakeTerms := by
  cases action with
  | staking | expansion =>
      simp only [Request.terms, requireAction, haction, present, bind, Except.bind]
      rfl
  | unbond | slashing | slashingUnbonding | withdraw | signMessage => cases hlocks

/-- What an action that locks coins asks of a transaction, over and above what every action does. -/
theorem checkTransaction_locking_iff [Crypto] {leaf : Option TapNode} (hlocks : action.locksStake)
    (hdescribes : r.Describes stake) (hstaker : r.stakerKey = some stake.staker) :
    r.checkTransaction policy (.locking action stake) tx = .ok leaf ↔
      tx.CommitsTo 0 stake.leaves.stakingRoot ∧
        (action = .expansion →
          tx.SpendsBy 0 (some stake.leaves.unbonding) ∧ tx.SpendsBy 1 none) ∧
        stake.lockingLeaf action = leaf := by
  cases action with
  | staking =>
      change r.checkTransaction policy (.staking stake) tx = .ok leaf ↔ _ ∧ _ ∧ none = leaf
      simp only [checkTransaction, bind_eq_ok_iff, checkStaking_eq_ok_iff hdescribes hstaker,
        exists_const, pure_eq_ok_iff, reduceCtorEq, false_implies, true_and]
  | expansion =>
      change r.checkTransaction policy (.expansion stake) tx = .ok leaf ↔
        _ ∧ _ ∧ some stake.leaves.unbonding = leaf
      simp only [checkTransaction, bind_eq_ok_iff, checkExpansion_eq_ok_iff hdescribes hstaker,
        pure_eq_ok_iff, true_implies]
      constructor
      · rintro ⟨_, ⟨houtput, hprevious, hfunding, rfl⟩, rfl⟩
        exact ⟨houtput, ⟨hprevious, hfunding⟩, rfl⟩
      · rintro ⟨houtput, ⟨hprevious, hfunding⟩, rfl⟩
        exact ⟨_, ⟨houtput, hprevious, hfunding, rfl⟩, rfl⟩
  | unbond | slashing | slashingUnbonding | withdraw | signMessage => cases hlocks

end Request

namespace Session

variable {s : Session} {tx : Transaction} {host : HostKeys} {stake : StakeTerms} {fee : UInt64}

/-! ## What may be agreed to -/

/-- Coins may be locked in a stake: the request describes the stake in full, the first output can be
spent by the scripts of that stake and in no other way, and where the action is an expansion, the
inputs are those of one. -/
structure MayLock [Crypto] (s : Session) (tx : Transaction) (host : HostKeys) (action : Action)
    (stake : StakeTerms) (fee : UInt64) : Prop where
  staker : s.request.ResolvesTo host stake.staker
  describes : s.request.Describes stake
  inputs : 1 ≤ tx.inputs.length
  outputs : 1 ≤ tx.outputs.length
  balances : tx.Balances fee
  keySets : s.pin.Admits s.request.keySets
  output : tx.CommitsTo 0
    (stake.leaves.slashing.branch (stake.leaves.unbonding.branch stake.leaves.timelock))
  expands : action = .expansion → tx.Expands stake

/-! ## Coins that may be locked -/

def loneOutputKey : XOnlyKey :=
  ⟨.ofNat 32 0x63c17c73442ad868941fed5f8df9c3eb7829ca089f4d7704597c3e03fa91df2f⟩

def loneOutput : Transaction.Output where
  script := 0x51 :: 0x20 :: loneOutputKey.bytes
  amount := 49000

def loneStaking : Transaction where
  inputs := [⟨⟨.zero 32⟩, 0, 50000, none⟩]
  outputs := [loneOutput]

def loneExpansion : Transaction where
  inputs := [⟨⟨.zero 32⟩, 0, 30000, some Request.loneLeaves.unbonding⟩,
    ⟨⟨.zero 32⟩, 1, 20000, none⟩]
  outputs := [loneOutput]

theorem loneOutputKey_eq :
    XOnlyKey.unspendable.tweak Request.loneStakedRoot = .ok (loneOutputKey, .even) :=
  toOption_eq_some_iff.mp (by decide +kernel)

theorem mayLock_loneStake (action : Action) (tx : Transaction) (hinputs : tx.inputSum = 50000)
    (houtputs : tx.outputs = [loneOutput])
    (hexpands : action = .expansion → tx.Expands Request.loneStake) :
    MayLock ⟨.standard, .ofStake action Request.loneStake, .free, .parsed⟩ tx .unavailable action
      Request.loneStake 1000 where
  staker := rfl
  describes := (Request.stakeTerms_eq_ok_iff.mp (Request.stakeTerms_loneStake action)).1
  inputs := by
    rcases h : tx.inputs with _ | ⟨first, rest⟩
    · simp [Transaction.inputSum, h] at hinputs
    · simp
  outputs := by rw [houtputs]; decide
  balances := by constructor <;> simp [hinputs, houtputs, Transaction.outputSum, loneOutput]
  keySets := nofun
  output := by
    have hroot := Request.hasNodes_loneStake.root_stakedTree
    refine ⟨loneOutputKey, .even, ?_, ?_⟩
    · rw [← loneOutputKey_eq, ← hroot]
      rfl
    · rw [Transaction.PaysTo, houtputs]
      rfl
  expands := hexpands

/-! ## The approval -/

def locked [Crypto] (policy : Policy) (action : Action) (stake : StakeTerms) (fee : UInt64) :
    Approval where
  action := action
  terms := .locking action stake
  fee := fee
  feeWarning := policy.highFee < fee
  leaf := stake.lockingLeaf action

theorem derivesLockingTerms_iff (haction : s.request.action = some action)
    (hlocks : action.locksStake) {request : Request} {terms : Terms} :
    (∃ derived, s.request.deriveStaker host = .ok (derived, request) ∧
      request.terms derived = .ok terms) ↔ ∃ stake,
      s.request.ResolvesTo host stake.staker ∧ s.request.Describes stake ∧
      request = s.request.withStaker stake.staker ∧ .locking action stake = terms := by
  refine derivesTerms_iff fun request derived terms hframe => ?_
  have hsame : request.action = some action := by rw [hframe]; exact haction
  rw [Request.terms_of_locksStake hsame hlocks, map_eq_ok_iff]

/-- An expansion has two inputs, and these are the ones that its rules ask for. -/
theorem inputs_iff [Crypto] (hlocks : action.locksStake) :
    action.allowsInputs tx.inputs.length ∧ (action = .expansion →
      tx.SpendsBy 0 (some stake.leaves.unbonding) ∧ tx.SpendsBy 1 none) ↔
      1 ≤ tx.inputs.length ∧ (action = .expansion → tx.Expands stake) := by
  cases action with
  | staking => simp [Action.allowsInputs]
  | expansion =>
      simp only [Action.allowsInputs, decide_eq_true_eq, true_implies]
      constructor
      · rintro ⟨hinputs, hprevious, hfunding⟩
        exact ⟨by omega, hinputs, hprevious, hfunding⟩
      · rintro ⟨-, h⟩
        exact ⟨h.inputs, h.previous, h.funding⟩
  | unbond | slashing | slashingUnbonding | withdraw | signMessage => cases hlocks

theorem passes_locking_iff [Crypto] (haction : s.request.action = some action)
    (hlocks : action.locksStake) {request : Request} {terms : Terms} {leaf : Option TapNode} :
    s.Passes tx host request terms fee leaf ↔ ∃ stake, s.MayLock tx host action stake fee ∧
      request = s.request.withStaker stake.staker ∧ .locking action stake = terms ∧
      stake.lockingLeaf action = leaf := by
  constructor
  · rintro ⟨hterms, hinputs, houtputs, hbalances, hsets, hrules⟩
    obtain ⟨stake, hresolves, hdescribes, rfl, rfl⟩ :=
      (derivesLockingTerms_iff haction hlocks).mp hterms
    obtain ⟨houtput, hspends, hleaf⟩ := (Request.checkTransaction_locking_iff hlocks
      (Request.describes_withStaker_iff.mpr hdescribes) rfl).mp hrules
    rw [Terms.action_locking hlocks] at hinputs houtputs
    rw [Action.leastOutputs_of_locksStake hlocks] at houtputs
    obtain ⟨hinput, hexpands⟩ := (inputs_iff hlocks).mp ⟨hinputs, hspends⟩
    exact ⟨stake, ⟨hresolves, hdescribes, hinput, houtputs, hbalances, hsets, houtput, hexpands⟩,
      rfl, rfl, hleaf⟩
  · rintro ⟨stake, h, rfl, rfl, rfl⟩
    obtain ⟨hinputs, hspends⟩ := (inputs_iff hlocks).mpr ⟨h.inputs, h.expands⟩
    constructor
    · exact (derivesLockingTerms_iff haction hlocks).mpr
        ⟨stake, h.staker, h.describes, rfl, rfl⟩
    · rw [Terms.action_locking hlocks]
      exact hinputs
    · rw [Terms.action_locking hlocks, Action.leastOutputs_of_locksStake hlocks]
      exact h.outputs
    · exact h.balances
    · exact h.keySets
    · exact (Request.checkTransaction_locking_iff hlocks
        (Request.describes_withStaker_iff.mpr h.describes) rfl).mpr ⟨h.output, hspends, rfl⟩

theorem approve_locking [Crypto] (hlocks : action.locksStake) (stake : StakeTerms) (fee : UInt64) :
    s.approve (.locking action stake) fee (stake.lockingLeaf action) =
      locked s.policy action stake fee := by
  simp [approve, locked, Terms.action_locking hlocks, Action.warnsOfFee_of_locksStake hlocks]

theorem pinAfter_locking (hlocks : action.locksStake) (request : Request) :
    s.pinAfter action request = s.pin :=
  if_neg (Action.not_isSlashing_of_locksStake hlocks)

/-- A loaded session agrees to lock coins in a stake exactly when it may. It then names the stake
whose scripts guard the output, and is verified with its pin as it was. -/
theorem verify_locking_eq_ok_iff [Crypto] {approval : Approval} {next : Session}
    (hstage : s.stage = .parsed) (haction : s.request.action = some action)
    (hlocks : action.locksStake) :
    s.verify tx host = (.ok approval, next) ↔ ∃ stake fee, s.MayLock tx host action stake fee ∧
      approval = locked s.policy action stake fee ∧
      next = { s with request := s.request.withStaker stake.staker, stage := .verified } := by
  rw [verify_eq_ok_iff_passes]
  constructor
  · rintro ⟨-, _, _, fee, _, hpasses, rfl, rfl⟩
    obtain ⟨stake, h, rfl, rfl, rfl⟩ := (passes_locking_iff haction hlocks).mp hpasses
    rw [approve_locking hlocks, Terms.action_locking hlocks, pinAfter_locking hlocks]
    exact ⟨stake, fee, h, rfl, rfl⟩
  · rintro ⟨stake, fee, h, rfl, rfl⟩
    have hpasses := (passes_locking_iff haction hlocks).mpr ⟨stake, h, rfl, rfl, rfl⟩
    refine ⟨hstage, _, _, fee, _, hpasses, (approve_locking hlocks stake fee).symm, ?_⟩
    rw [Terms.action_locking hlocks, pinAfter_locking hlocks]

theorem verify_locking_of_loneStake :
    let s (action : Action) : Session :=
      ⟨.standard, .ofStake action Request.loneStake, .free, .parsed⟩
    ((s .staking).stage = .parsed ∧ (s .staking).request.action = some .staking ∧
      Action.staking.locksStake ∧ ∃ next, (s .staking).verify loneStaking .unavailable =
        (.ok (locked .standard .staking Request.loneStake 1000), next)) ∧
    ((s .expansion).stage = .parsed ∧ (s .expansion).request.action = some .expansion ∧
      Action.expansion.locksStake ∧ ∃ next, (s .expansion).verify loneExpansion .unavailable =
        (.ok (locked .standard .expansion Request.loneStake 1000), next)) := by
  have hstaking := mayLock_loneStake .staking loneStaking rfl rfl nofun
  have hexpansion := mayLock_loneStake .expansion loneExpansion rfl rfl fun _ =>
    ⟨rfl, congrArg (some ∘ some) Request.hasNodes_loneStake.unbonding.symm, rfl⟩
  exact ⟨⟨rfl, rfl, rfl, _, (verify_locking_eq_ok_iff rfl rfl rfl).mpr ⟨_, _, hstaking, rfl, rfl⟩⟩,
    ⟨rfl, rfl, rfl, _, (verify_locking_eq_ok_iff rfl rfl rfl).mpr ⟨_, _, hexpansion, rfl, rfl⟩⟩⟩

end Session

end CovenantStaking

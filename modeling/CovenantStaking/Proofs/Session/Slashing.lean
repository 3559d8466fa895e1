import CovenantStaking.Proofs.Session.Approval

/-!
# Slashing sessions

The conditions under which a session approves the loss of a stake, each stated on what was sent.
-/

namespace CovenantStaking

/-! ## The action and its terms -/

theorem Action.allowsInputs_of_isSlashing {action : Action} (h : action.isSlashing) {count : Nat} :
    action.allowsInputs count ↔ count = 1 := by
  cases action with
  | slashing | slashingUnbonding => simp [allowsInputs]
  | staking | unbond | withdraw | signMessage | expansion => cases h

theorem Action.leastOutputs_of_isSlashing {action : Action} (h : action.isSlashing) :
    action.leastOutputs = 2 := by
  cases action with
  | slashing | slashingUnbonding => rfl
  | staking | unbond | withdraw | signMessage | expansion => cases h

theorem Action.warnsOfFee_of_isSlashing {action : Action} (h : action.isSlashing) :
    action.warnsOfFee = false := by
  cases action with
  | slashing | slashingUnbonding => rfl
  | staking | unbond | withdraw | signMessage | expansion => cases h

theorem Terms.action_slashing {action : Action} (h : action.isSlashing) (stake : StakeTerms)
    (limit : UInt64) (burnAddress : Bytes) :
    (slashing stake limit burnAddress (action = .slashingUnbonding)).action = action := by
  cases action with
  | slashing | slashingUnbonding => rfl
  | staking | unbond | withdraw | signMessage | expansion => cases h

namespace Request

variable {r : Request}

theorem terms_of_isSlashing {action : Action} (haction : r.action = some action)
    (hslashing : action.isSlashing) (derived : Option PublicKey) :
    r.terms derived = r.slashingTerms (action = .slashingUnbonding) := by
  cases action with
  | slashing => simp [terms, requireAction, haction, present, bind, Except.bind]
  | slashingUnbonding => simp [terms, requireAction, haction, present, bind, Except.bind]
  | staking | unbond | withdraw | signMessage | expansion => cases hslashing

theorem checkTransaction_slashing_iff [Crypto] {tx : Transaction} {policy : Policy}
    {stake : StakeTerms} {limit : UInt64} {burnAddress : Bytes} {fromUnbonding : Bool}
    {leaf : Option TapNode} (hdescribes : r.Describes stake)
    (hstaker : r.stakerKey = some stake.staker) :
    r.checkTransaction policy (.slashing stake limit burnAddress fromUnbonding) tx = .ok leaf ↔
      (∃ fee, r.checkSlashing policy tx = .ok fee) ∧
        leaf = some (Tapscript.leaf (Tapscript.slashing stake.staker stake.finalityProviders
          stake.covenantKeys stake.covenantQuorum)) := by
  simp only [checkTransaction, bind_eq_ok_iff, hdescribes.slashingLeaf_eq hstaker,
    Except.ok.injEq, pure_eq_ok_iff]
  constructor
  · rintro ⟨fee, hfee, _, rfl, rfl⟩
    exact ⟨⟨fee, hfee⟩, rfl⟩
  · rintro ⟨⟨fee, hfee⟩, rfl⟩
    exact ⟨fee, hfee, _, rfl, rfl⟩

end Request

namespace Session

variable {s : Session} {tx : Transaction} {host : HostKeys} {action : Action}

/-! ## What may be agreed to -/

/-- The loss of a stake may be agreed to: the request describes the stake in full, the fee is at
least the limit and the limit is one that the policy admits, the burned coins go to the burn address
and the change is the staker's own after the lock. -/
structure MaySlash [Crypto] (s : Session) (tx : Transaction) (host : HostKeys) (stake : StakeTerms)
    (limit : UInt64) (burnAddress : Bytes) (fee : UInt64) : Prop where
  staker : s.request.ResolvesTo host stake.staker
  describes : s.request.Describes stake
  feeLimit : s.request.slashingFeeLimit = some limit
  burn : s.request.burnAddress = some burnAddress
  inputs : tx.inputs.length = 1
  outputs : 2 ≤ tx.outputs.length
  balances : tx.Balances fee
  limit_le : limit ≤ fee
  bounds : s.policy.Admits limit
  keySets : s.pin.Admits s.request.keySets
  change :
    tx.CommitsTo 1 (Tapscript.leaf (Tapscript.lockedSpend stake.staker stake.timelock))
  burns : Request.Burns tx s.policy.network burnAddress

/-! ## A loss that may be agreed to -/

/-- A stake of one finality provider, under a covenant of one key. -/
def lossStake (covenantKey : XOnlyKey) : StakeTerms where
  staker := ⟨.zero 32⟩
  finalityProviders := [⟨.zero 32⟩]
  covenantKeys := [covenantKey]
  covenantQuorum := 1
  timelock := 144

def lossRequest (covenantKey : XOnlyKey) : Request where
  action := some .slashing
  finalityProviders := some [⟨.zero 32⟩]
  covenantKeys := some [covenantKey]
  covenantQuorum := some 1
  stakerKey := some ⟨.zero 32⟩
  timelock := some 144
  slashingFeeLimit := some 1000
  burnAddress := some [0x6a]

/-- The output key of the change, which the staker can spend after 144 blocks. -/
def lossChangeKey : XOnlyKey :=
  ⟨.ofNat 32 0xec30fde268ece865609f8ad9ffb6e01a0fb4fd8e05d8187503ce869ab0fbc5f4⟩

/-- Everything but a fee of 1000 sats goes back to the staker. -/
def lossTransaction : Transaction where
  inputs := [⟨⟨.zero 32⟩, 0, 50000, none⟩]
  outputs := [⟨[0x6a], 0⟩, ⟨0x51 :: 0x20 :: lossChangeKey.bytes, 49000⟩]

theorem lossChangeKey_eq :
    XOnlyKey.unspendable.tweak (Tapscript.leaf (Tapscript.lockedSpend ⟨.zero 32⟩ 144)) =
      .ok (lossChangeKey, .even) :=
  toOption_eq_some_iff.mp (by decide +kernel)

theorem maySlash_loss (covenantKey : XOnlyKey) {pin : KeyPin}
    (hpin : pin.Admits (lossRequest covenantKey).keySets) :
    MaySlash ⟨.standard, lossRequest covenantKey, pin, .parsed⟩ lossTransaction .unavailable
      (lossStake covenantKey) 1000 [0x6a] 1000 where
  staker := rfl
  describes := by constructor <;> simp [lossRequest, lossStake]
  feeLimit := rfl
  burn := rfl
  inputs := rfl
  outputs := Nat.le_refl 2
  balances := by constructor <;> decide
  limit_le := UInt64.le_refl 1000
  bounds := by
    rintro _ ⟨⟩
    decide
  keySets := hpin
  change := ⟨lossChangeKey, .even, lossChangeKey_eq, rfl⟩
  burns := ⟨rfl, fun _ => rfl⟩

/-! ## The approval -/

/-- What is approved when the loss of a stake is agreed to: the host signs under the slashing leaf,
and the fee is no reason to warn. -/
def slashed [Crypto] (action : Action) (stake : StakeTerms) (limit : UInt64) (burnAddress : Bytes)
    (fee : UInt64) : Approval where
  action := action
  terms := .slashing stake limit burnAddress (action = .slashingUnbonding)
  fee := fee
  feeWarning := false
  leaf := some (Tapscript.leaf (Tapscript.slashing stake.staker stake.finalityProviders
    stake.covenantKeys stake.covenantQuorum))

theorem derivesSlashingTerms_iff (haction : s.request.action = some action)
    (hslashing : action.isSlashing) {request : Request} {terms : Terms} :
    (∃ derived, s.request.deriveStaker host = .ok (derived, request) ∧
      request.terms derived = .ok terms) ↔ ∃ stake limit burnAddress,
      s.request.ResolvesTo host stake.staker ∧ s.request.Describes stake ∧
      s.request.slashingFeeLimit = some limit ∧ s.request.burnAddress = some burnAddress ∧
      request = s.request.withStaker stake.staker ∧
      terms = .slashing stake limit burnAddress (action = .slashingUnbonding) := by
  have hterms (request : Request) (derived : Option PublicKey) (terms : Terms)
      (hframe : request = { s.request with stakerKey := request.stakerKey }) :
      request.terms derived = .ok terms ↔ ∃ stake, request.stakeTerms = .ok stake ∧
        ∃ limit burnAddress, s.request.slashingFeeLimit = some limit ∧
          s.request.burnAddress = some burnAddress ∧
          terms = .slashing stake limit burnAddress (action = .slashingUnbonding) := by
    have hsame : request.action = some action := by rw [hframe]; exact haction
    rw [Request.terms_of_isSlashing hsame hslashing, Request.slashingTerms_eq_ok_iff, hframe]
    simp only [exists_and_left]
  rw [derivesTerms_iff hterms]
  constructor
  · rintro ⟨stake, hresolves, hdescribes, rfl, limit, burnAddress, hlimit, hburn, rfl⟩
    exact ⟨stake, limit, burnAddress, hresolves, hdescribes, hlimit, hburn, rfl, rfl⟩
  · rintro ⟨stake, limit, burnAddress, hresolves, hdescribes, hlimit, hburn, rfl, rfl⟩
    exact ⟨stake, hresolves, hdescribes, rfl, limit, burnAddress, hlimit, hburn, rfl⟩

theorem passes_slashing_iff [Crypto] (haction : s.request.action = some action)
    (hslashing : action.isSlashing) {request : Request} {terms : Terms} {fee : UInt64}
    {leaf : Option TapNode} :
    s.Passes tx host request terms fee leaf ↔ ∃ stake limit burnAddress,
      s.MaySlash tx host stake limit burnAddress fee ∧
      request = s.request.withStaker stake.staker ∧
      terms = .slashing stake limit burnAddress (action = .slashingUnbonding) ∧
      leaf = some (Tapscript.leaf (Tapscript.slashing stake.staker stake.finalityProviders
        stake.covenantKeys stake.covenantQuorum)) := by
  constructor
  · rintro ⟨hterms, hinputs, houtputs, hbalances, hsets, hrules⟩
    obtain ⟨stake, limit, burnAddress, hresolves, hdescribes, hlimit, hburn, rfl, rfl⟩ :=
      (derivesSlashingTerms_iff haction hslashing).mp hterms
    obtain ⟨⟨fee', hslash⟩, hleaf⟩ := (Request.checkTransaction_slashing_iff
      (Request.describes_withStaker_iff.mpr hdescribes) rfl).mp hrules
    obtain ⟨limit', burnAddress', hlimit', hburn', hadmits, hbalances', hle, hchange, hburns⟩ :=
      (Request.checkSlashing_eq_ok_iff (Request.describes_withStaker_iff.mpr hdescribes) rfl).mp
        hslash
    -- the fields are read a second time by the rules, with the same outcome
    cases hlimit.symm.trans hlimit'
    cases hburn.symm.trans hburn'
    cases hbalances.fee_unique hbalances'
    rw [Terms.action_slashing hslashing] at hinputs houtputs
    rw [Action.leastOutputs_of_isSlashing hslashing] at houtputs
    exact ⟨stake, limit, burnAddress, ⟨hresolves, hdescribes, hlimit, hburn,
      (Action.allowsInputs_of_isSlashing hslashing).mp hinputs, houtputs, hbalances, hle, hadmits,
      hsets, hchange, hburns⟩, rfl, rfl, hleaf⟩
  · rintro ⟨stake, limit, burnAddress, h, rfl, rfl, rfl⟩
    have hdescribes : (s.request.withStaker stake.staker).Describes stake :=
      Request.describes_withStaker_iff.mpr h.describes
    constructor
    · exact (derivesSlashingTerms_iff haction hslashing).mpr
        ⟨stake, limit, burnAddress, h.staker, h.describes, h.feeLimit, h.burn, rfl, rfl⟩
    · rw [Terms.action_slashing hslashing]
      exact (Action.allowsInputs_of_isSlashing hslashing).mpr h.inputs
    · rw [Terms.action_slashing hslashing, Action.leastOutputs_of_isSlashing hslashing]
      exact h.outputs
    · exact h.balances
    · exact h.keySets
    · refine (Request.checkTransaction_slashing_iff hdescribes rfl).mpr ⟨⟨fee, ?_⟩, rfl⟩
      exact (Request.checkSlashing_eq_ok_iff hdescribes rfl).mpr ⟨limit, burnAddress, h.feeLimit,
        h.burn, h.bounds, h.balances, h.limit_le, h.change, h.burns⟩

theorem approve_slashing [Crypto] (hslashing : action.isSlashing) (stake : StakeTerms)
    (limit : UInt64) (burnAddress : Bytes) (fee : UInt64) :
    s.approve (.slashing stake limit burnAddress (action = .slashingUnbonding)) fee
        (some (Tapscript.leaf (Tapscript.slashing stake.staker stake.finalityProviders
          stake.covenantKeys stake.covenantQuorum))) =
      slashed action stake limit burnAddress fee := by
  simp [approve, slashed, Terms.action_slashing hslashing,
    Action.warnsOfFee_of_isSlashing hslashing]

theorem pinAfter_slashing (hslashing : action.isSlashing) (staker : XOnlyKey) :
    s.pinAfter action (s.request.withStaker staker) = s.pin.hold s.request :=
  if_pos hslashing

theorem verify_of_maySlash [Crypto] {stake : StakeTerms} {limit fee : UInt64} {burnAddress : Bytes}
    (hstage : s.stage = .parsed) (haction : s.request.action = some action)
    (hslashing : action.isSlashing) (h : s.MaySlash tx host stake limit burnAddress fee) :
    s.verify tx host = (.ok (slashed action stake limit burnAddress fee),
      { s with
        request := s.request.withStaker stake.staker
        pin := s.pin.hold s.request
        stage := .verified }) := by
  have hpasses := (passes_slashing_iff haction hslashing).mpr
    ⟨stake, limit, burnAddress, h, rfl, rfl, rfl⟩
  refine verify_eq_ok_iff.mpr ⟨hstage, _, _, checks_eq_ok_iff.mpr ⟨_, _, _, _, hpasses, ?_⟩, rfl⟩
  rw [approve_slashing hslashing, Terms.action_slashing hslashing, pinAfter_slashing hslashing]

/-- A loaded session agrees to the loss of a stake exactly when it may, and then names what it
agrees to, pins the key sets and is verified. -/
theorem verify_slashing_eq_ok_iff [Crypto] {approval : Approval} {next : Session}
    (hstage : s.stage = .parsed) (haction : s.request.action = some action)
    (hslashing : action.isSlashing) :
    s.verify tx host = (.ok approval, next) ↔ ∃ stake limit burnAddress fee,
      s.MaySlash tx host stake limit burnAddress fee ∧
      approval = slashed action stake limit burnAddress fee ∧
      next = { s with
        request := s.request.withStaker stake.staker
        pin := s.pin.hold s.request
        stage := .verified } := by
  constructor
  · intro hverify
    obtain ⟨_, request, pin, hchecks, rfl⟩ := verify_eq_ok_iff.mp hverify
    obtain ⟨_, terms, fee, leaf, hpasses, heq⟩ := checks_eq_ok_iff.mp hchecks
    obtain ⟨stake, limit, burnAddress, h, rfl, rfl, rfl⟩ :=
      (passes_slashing_iff haction hslashing).mp hpasses
    rw [approve_slashing hslashing, Terms.action_slashing hslashing,
      pinAfter_slashing hslashing] at heq
    cases heq
    exact ⟨stake, limit, burnAddress, fee, h, rfl, rfl⟩
  · rintro ⟨stake, limit, burnAddress, fee, h, rfl, rfl⟩
    exact verify_of_maySlash hstage haction hslashing h

theorem verify_slashing_of_loss :
    let s : Session := ⟨.standard, lossRequest ⟨.zero 32⟩, .free, .parsed⟩
    (s.stage = .parsed ∧ s.request.action = some .slashing ∧ Action.slashing.isSlashing) ∧
      ∃ approval next, s.verify lossTransaction .unavailable = (.ok approval, next) :=
  ⟨⟨rfl, rfl, rfl⟩, _, _, (verify_slashing_eq_ok_iff rfl rfl rfl).mpr
    ⟨lossStake ⟨.zero 32⟩, 1000, [0x6a], 1000, maySlash_loss _ nofun, rfl, rfl⟩⟩

end Session

end CovenantStaking

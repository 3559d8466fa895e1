import CovenantStaking.Proofs.Request.Rules

/-!
# Requests that agree in what an action needs

Each action has fields of its own, besides the path and the staker. Requests that agree in them have
the same terms, and hold every transaction to the same rules, whatever else was sent.
-/

namespace CovenantStaking.Request

variable {a b : Request}

/-- The fields that the scripts of a stake are made of are the same, the staker's key aside. -/
structure SameStakeFields (a b : Request) : Prop where
  finalityProviders : a.finalityProviders = b.finalityProviders
  covenantKeys : a.covenantKeys = b.covenantKeys
  covenantQuorum : a.covenantQuorum = b.covenantQuorum
  timelock : a.timelock = b.timelock

structure SameUnbondFields (a b : Request) : Prop extends SameStakeFields a b where
  unbondingFeeLimit : a.unbondingFeeLimit = b.unbondingFeeLimit

structure SameSlashingFields (a b : Request) : Prop extends SameStakeFields a b where
  slashingFeeLimit : a.slashingFeeLimit = b.slashingFeeLimit
  burnAddress : a.burnAddress = b.burnAddress

structure SameMessageFields (a b : Request) : Prop where
  message : a.message = b.message
  messageKey : a.messageKey = b.messageKey
  txid : a.txid = b.txid

/-- The fields that are an action's own are the same. -/
def SameFields (a b : Request) : Action → Prop
  | .staking | .expansion => SameStakeFields a b
  | .unbond => SameUnbondFields a b
  | .slashing | .slashingUnbonding => SameSlashingFields a b
  | .signMessage => SameMessageFields a b
  | .withdraw => True

/-- The requests are for one action, path and staker, and the same in the fields of this action. -/
structure Agrees (a b : Request) : Prop where
  action : a.action = b.action
  derivationPath : a.derivationPath = b.derivationPath
  stakerKey : a.stakerKey = b.stakerKey
  own : ∀ action ∈ a.action, SameFields a b action

/-! ## Scripts -/

namespace SameStakeFields

theorem committee_eq (h : SameStakeFields a b) : a.committee = b.committee := by
  simp only [committee, requireCovenantKeys, requireQuorum, h.covenantKeys, h.covenantQuorum]

theorem stakeTerms_eq (h : SameStakeFields a b) (hstaker : a.stakerKey = b.stakerKey) :
    a.stakeTerms = b.stakeTerms := by
  simp only [stakeTerms_eq_committee, requireTimelock, requireStakerKey, requireProviders,
    h.committee_eq, h.timelock, hstaker, h.finalityProviders]

theorem slashingLeaf_eq [Crypto] (h : SameStakeFields a b) (hstaker : a.stakerKey = b.stakerKey) :
    a.slashingLeaf = b.slashingLeaf := by
  simp only [slashingLeaf, slashingScript, requireStakerKey, requireProviders,
    h.committee_eq, hstaker, h.finalityProviders]

theorem unbondingLeaf_eq [Crypto] (h : SameStakeFields a b) (hstaker : a.stakerKey = b.stakerKey) :
    a.unbondingLeaf = b.unbondingLeaf := by
  simp only [unbondingLeaf, unbondingScript, requireStakerKey, h.committee_eq, hstaker]

theorem timelockLeaf_eq [Crypto] (h : SameStakeFields a b) (hstaker : a.stakerKey = b.stakerKey) :
    a.timelockLeaf = b.timelockLeaf := by
  simp only [timelockLeaf, timelockScript, requireStakerKey, requireTimelock, hstaker, h.timelock]

theorem leaves_eq [Crypto] (h : SameStakeFields a b) (hstaker : a.stakerKey = b.stakerKey) :
    a.leaves = b.leaves := by
  simp only [leaves, h.slashingLeaf_eq hstaker, h.unbondingLeaf_eq hstaker,
    h.timelockLeaf_eq hstaker]

end SameStakeFields

/-! ## The staker -/

/-- The request with the staker of another one, if that has one. -/
def withStakerOf (r other : Request) : Request :=
  { r with stakerKey := other.stakerKey }

namespace Agrees

/-- Two requests that agree derive one key, and are left with one staker. -/
theorem deriveStaker_eq (h : a.Agrees b) (host : HostKeys) :
    b.deriveStaker host =
      (fun (derived, next) => (derived, b.withStakerOf next)) <$> a.deriveStaker host := by
  cases hpath : b.derivationPath with
  | none =>
      have hsame : b.withStakerOf a = b := by rw [withStakerOf, h.stakerKey]
      simp only [deriveStaker, h.derivationPath, hpath]
      exact congrArg (fun r => Except.ok (none, r)) hsame.symm
  | some path =>
      simp only [deriveStaker, h.derivationPath, hpath, checkSentStaker, h.stakerKey, withStakerOf,
        map_bind, map_pure]

theorem of_deriveStaker {host : HostKeys} {derived : Option PublicKey} {next : Request}
    (h : a.Agrees b) (hderive : a.deriveStaker host = .ok (derived, next)) :
    next.Agrees (b.withStakerOf next) := by
  rw [deriveStaker_frame hderive]
  exact {
    action := h.action
    derivationPath := h.derivationPath
    stakerKey := rfl
    own := by
      intro action haction
      have hown := h.own action haction
      cases action with
      | withdraw => trivial
      | staking | expansion | unbond | slashing | slashingUnbonding | signMessage =>
          exact { hown with } }

end Agrees

/-! ## Terms -/

theorem SameUnbondFields.unbondTerms_eq (h : SameUnbondFields a b)
    (hstaker : a.stakerKey = b.stakerKey) : a.unbondTerms = b.unbondTerms := by
  simp only [unbondTerms, h.stakeTerms_eq hstaker, h.unbondingFeeLimit]

theorem SameSlashingFields.slashingTerms_eq (h : SameSlashingFields a b)
    (hstaker : a.stakerKey = b.stakerKey) (fromUnbonding : Bool) :
    a.slashingTerms fromUnbonding = b.slashingTerms fromUnbonding := by
  simp only [slashingTerms, h.stakeTerms_eq hstaker, h.slashingFeeLimit, h.burnAddress]

theorem SameMessageFields.messageTerms_eq (h : SameMessageFields a b)
    (hpath : a.derivationPath = b.derivationPath) (derived : Option PublicKey) :
    a.messageTerms derived = b.messageTerms derived := by
  simp only [messageTerms, hpath, h.message, h.messageKey]

namespace Agrees

theorem terms_eq (h : a.Agrees b) (derived : Option PublicKey) :
    a.terms derived = b.terms derived := by
  unfold terms requireAction
  rw [← h.action]
  cases haction : a.action with
  | none => rfl
  | some action =>
      have hown := h.own action haction
      cases action with
      | staking | expansion =>
          exact congrArg (_ <$> ·) (SameStakeFields.stakeTerms_eq hown h.stakerKey)
      | unbond => exact SameUnbondFields.unbondTerms_eq hown h.stakerKey
      | slashing | slashingUnbonding =>
          exact SameSlashingFields.slashingTerms_eq hown h.stakerKey _
      | withdraw => rfl
      | signMessage => exact SameMessageFields.messageTerms_eq hown h.derivationPath derived

/-! ## Rules -/

/-- The rules read the fields a second time, for the action that the terms are of. -/
theorem checkTransaction_eq [Crypto] (h : a.Agrees b) {terms : Terms}
    (haction : a.action = some terms.action) (policy : Policy) (tx : Transaction) :
    a.checkTransaction policy terms tx = b.checkTransaction policy terms tx := by
  have hown := h.own _ haction
  cases terms with
  | staking _ =>
      have hstake : SameStakeFields a b := hown
      simp only [checkTransaction, checkStaking, stakingRoot, hstake.leaves_eq h.stakerKey]
  | expansion _ =>
      have hstake : SameStakeFields a b := hown
      simp only [checkTransaction, checkExpansion, hstake.leaves_eq h.stakerKey]
  | unbond _ _ =>
      have hunbond : SameUnbondFields a b := hown
      simp only [checkTransaction, checkUnbond, unbondedRoot, hunbond.unbondingFeeLimit,
        hunbond.slashingLeaf_eq h.stakerKey, hunbond.timelockLeaf_eq h.stakerKey,
        hunbond.unbondingLeaf_eq h.stakerKey]
  | slashing _ _ _ fromUnbonding =>
      have hslash : SameSlashingFields a b := by
        cases fromUnbonding
        · exact hown
        · exact hown
      simp only [checkTransaction, checkSlashing, hslash.slashingFeeLimit, hslash.burnAddress,
        hslash.slashingLeaf_eq h.stakerKey, hslash.timelockLeaf_eq h.stakerKey]
  | withdraw => rfl
  | signMessage _ _ _ =>
      have hmessage : SameMessageFields a b := hown
      simp only [checkTransaction, checkMessage, hmessage.message, hmessage.txid]

end Agrees

end CovenantStaking.Request

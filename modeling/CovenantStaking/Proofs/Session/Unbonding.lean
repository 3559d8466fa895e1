import CovenantStaking.Proofs.Request.Roots
import CovenantStaking.Proofs.Session.Approval

/-!
# Unbonding sessions

The conditions under which a session approves that a stake is unbonded. The output that it goes to
knows two of the stake's three scripts, and the one to sign under is the third.
-/

namespace CovenantStaking

namespace Request

variable {r : Request} {tx : Transaction} {policy : Policy} {stake : StakeTerms}

theorem terms_of_unbond (haction : r.action = some .unbond) (derived : Option PublicKey) :
    r.terms derived = r.unbondTerms := by
  simp only [terms, requireAction, haction, present, bind, Except.bind]

theorem checkTransaction_unbond_iff [Crypto] {limit : UInt64} {leaf : Option TapNode}
    (hdescribes : r.Describes stake) (hstaker : r.stakerKey = some stake.staker) :
    r.checkTransaction policy (.unbond stake limit) tx = .ok leaf ↔
      (∃ fee, r.checkUnbond policy tx = .ok fee) ∧ some stake.leaves.unbonding = leaf := by
  simp only [checkTransaction, bind_eq_ok_iff, hdescribes.unbondingLeaf_eq hstaker,
    Except.ok.injEq, exists_eq_left', pure_eq_ok_iff, exists_and_right]
  rfl

end Request

namespace Session

variable {s : Session} {tx : Transaction} {host : HostKeys} {stake : StakeTerms} {limit : UInt64}

/-! ## What may be agreed to -/

/-- A stake may be unbonded: the request describes the stake in full, what the outputs leave of the
input is exactly a fee limit that the policy admits, and the first output can be spent by the
slashing script and the timelock script of that stake and in no other way. -/
structure MayUnbond [Crypto] (s : Session) (tx : Transaction) (host : HostKeys) (stake : StakeTerms)
    (limit : UInt64) : Prop where
  staker : s.request.ResolvesTo host stake.staker
  describes : s.request.Describes stake
  feeLimit : s.request.unbondingFeeLimit = some limit
  bounds : s.policy.Admits limit
  inputs : tx.inputs.length = 1
  outputs : 1 ≤ tx.outputs.length
  balances : tx.Balances limit
  keySets : s.pin.Admits s.request.keySets
  output : tx.CommitsTo 0 (stake.leaves.slashing.branch stake.leaves.timelock)

/-! ## A stake that may be unbonded -/

def loneUnbondRequest : Request :=
  { Request.ofStake .unbond Request.loneStake with unbondingFeeLimit := some 1000 }

def loneUnbondedKey : XOnlyKey :=
  ⟨.ofNat 32 0x61547c98e351f50203a93860462f1b34f6ea0a10c531913102a4f9d47d7cbec5⟩

def loneUnbonding : Transaction where
  inputs := [⟨⟨.zero 32⟩, 0, 50000, some Request.loneLeaves.unbonding⟩]
  outputs := [⟨0x51 :: 0x20 :: loneUnbondedKey.bytes, 49000⟩]

theorem loneUnbondedKey_eq :
    XOnlyKey.unspendable.tweak Request.loneUnbondedRoot = .ok (loneUnbondedKey, .even) :=
  toOption_eq_some_iff.mp (by decide +kernel)

theorem mayUnbond_loneStake :
    MayUnbond ⟨.standard, loneUnbondRequest, .free, .parsed⟩ loneUnbonding .unavailable
      Request.loneStake 1000 where
  staker := rfl
  describes := by constructor <;> simp [loneUnbondRequest, Request.ofStake, Request.loneStake]
  feeLimit := rfl
  bounds := by
    rintro _ ⟨⟩
    decide
  inputs := rfl
  outputs := Nat.le_refl 1
  balances := by constructor <;> decide
  keySets := nofun
  output := by
    refine ⟨loneUnbondedKey, .even, ?_, rfl⟩
    rw [← loneUnbondedKey_eq, ← Request.hasNodes_loneStake.root_unbondedTree]
    rfl

/-! ## The approval -/

/-- What is approved when a stake is unbonded: the host signs under the unbonding leaf, and the fee
is no reason to warn. -/
def unbonded [Crypto] (stake : StakeTerms) (limit : UInt64) : Approval where
  action := .unbond
  terms := .unbond stake limit
  fee := limit
  feeWarning := false
  leaf := some stake.leaves.unbonding

theorem derivesUnbondTerms_iff (haction : s.request.action = some .unbond) {request : Request}
    {terms : Terms} :
    (∃ derived, s.request.deriveStaker host = .ok (derived, request) ∧
      request.terms derived = .ok terms) ↔ ∃ stake,
      s.request.ResolvesTo host stake.staker ∧ s.request.Describes stake ∧
      request = s.request.withStaker stake.staker ∧
      ∃ limit, s.request.unbondingFeeLimit = some limit ∧ terms = .unbond stake limit := by
  have hterms (request : Request) (derived : Option PublicKey) (terms : Terms)
      (hframe : request = { s.request with stakerKey := request.stakerKey }) :
      request.terms derived = .ok terms ↔ ∃ stake, request.stakeTerms = .ok stake ∧
        ∃ limit, s.request.unbondingFeeLimit = some limit ∧ terms = .unbond stake limit := by
    have hsame : request.action = some .unbond := by rw [hframe]; exact haction
    rw [Request.terms_of_unbond hsame, Request.unbondTerms_eq_ok_iff, hframe]
    simp only [exists_and_left]
  exact derivesTerms_iff hterms

theorem passes_unbond_iff [Crypto] (haction : s.request.action = some .unbond) {request : Request}
    {terms : Terms} {fee : UInt64} {leaf : Option TapNode} :
    s.Passes tx host request terms fee leaf ↔ ∃ stake, s.MayUnbond tx host stake fee ∧
      request = s.request.withStaker stake.staker ∧ terms = .unbond stake fee ∧
      some stake.leaves.unbonding = leaf := by
  constructor
  · rintro ⟨hterms, hinputs, houtputs, hbalances, hsets, hrules⟩
    obtain ⟨stake, hresolves, hdescribes, rfl, limit, hlimit, rfl⟩ :=
      (derivesUnbondTerms_iff haction).mp hterms
    obtain ⟨⟨fee', hunbond⟩, hleaf⟩ := (Request.checkTransaction_unbond_iff
      (Request.describes_withStaker_iff.mpr hdescribes) rfl).mp hrules
    obtain ⟨hlimit', hadmits, hbalances', houtput⟩ :=
      (Request.checkUnbond_eq_ok_iff (Request.describes_withStaker_iff.mpr hdescribes) rfl).mp
        hunbond
    -- the fee that the rules compute again is the limit of the terms and the fee of every action
    cases hlimit.symm.trans hlimit'
    cases hbalances.fee_unique hbalances'
    exact ⟨stake, ⟨hresolves, hdescribes, hlimit, hadmits, of_decide_eq_true hinputs, houtputs,
      hbalances, hsets, houtput⟩, rfl, rfl, hleaf⟩
  · rintro ⟨stake, h, rfl, rfl, rfl⟩
    have hdescribes : (s.request.withStaker stake.staker).Describes stake :=
      Request.describes_withStaker_iff.mpr h.describes
    constructor
    · exact (derivesUnbondTerms_iff haction).mpr
        ⟨stake, h.staker, h.describes, rfl, fee, h.feeLimit, rfl⟩
    · exact decide_eq_true h.inputs
    · exact h.outputs
    · exact h.balances
    · exact h.keySets
    · refine (Request.checkTransaction_unbond_iff hdescribes rfl).mpr ⟨⟨fee, ?_⟩, rfl⟩
      exact (Request.checkUnbond_eq_ok_iff hdescribes rfl).mpr
        ⟨h.feeLimit, h.bounds, h.balances, h.output⟩

/-- A loaded session agrees to the unbonding of a stake exactly when it may. It then names the stake
and the fee, tells the host to sign under the stake's unbonding script, and is verified with its pin
as it was. -/
theorem verify_unbond_eq_ok_iff [Crypto] {approval : Approval} {next : Session}
    (hstage : s.stage = .parsed) (haction : s.request.action = some .unbond) :
    s.verify tx host = (.ok approval, next) ↔ ∃ stake limit, s.MayUnbond tx host stake limit ∧
      approval = unbonded stake limit ∧
      next = { s with request := s.request.withStaker stake.staker, stage := .verified } := by
  rw [verify_eq_ok_iff_passes]
  constructor
  · rintro ⟨-, _, _, fee, _, hpasses, rfl, rfl⟩
    obtain ⟨stake, h, rfl, rfl, rfl⟩ := (passes_unbond_iff haction).mp hpasses
    exact ⟨stake, fee, h, rfl, rfl⟩
  · rintro ⟨stake, limit, h, rfl, rfl⟩
    exact ⟨hstage, _, _, _, _, (passes_unbond_iff haction).mpr ⟨stake, h, rfl, rfl, rfl⟩, rfl, rfl⟩

theorem verify_unbond_of_loneStake :
    let s : Session := ⟨.standard, loneUnbondRequest, .free, .parsed⟩
    (s.stage = .parsed ∧ s.request.action = some .unbond) ∧
      ∃ next, s.verify loneUnbonding .unavailable =
        (.ok (unbonded Request.loneStake 1000), next) :=
  ⟨⟨rfl, rfl⟩, _, (verify_unbond_eq_ok_iff rfl rfl).mpr
    ⟨Request.loneStake, 1000, mayUnbond_loneStake, rfl, rfl⟩⟩

end Session

end CovenantStaking

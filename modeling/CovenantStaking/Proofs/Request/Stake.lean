import CovenantStaking.Proofs.Outcome
import CovenantStaking.Request.Leaves
import CovenantStaking.Request.Terms
import CovenantStaking.Session.Basic

/-!
# The stake that a request describes

Who the staker of a request is, which stake its fields describe, and that the terms shown and the
scripts checked are those of this one stake.
-/

namespace CovenantStaking.StakeTerms

def slashingScript (stake : StakeTerms) : Bytes :=
  Tapscript.slashing stake.staker stake.finalityProviders stake.covenantKeys stake.covenantQuorum

def unbondingScript (stake : StakeTerms) : Bytes :=
  Tapscript.unbonding stake.staker stake.covenantKeys stake.covenantQuorum

def timelockScript (stake : StakeTerms) : Bytes :=
  Tapscript.lockedSpend stake.staker stake.timelock

def leaves [Crypto] (stake : StakeTerms) : StakeLeaves where
  slashing := Tapscript.leaf stake.slashingScript
  unbonding := Tapscript.leaf stake.unbondingScript
  timelock := Tapscript.leaf stake.timelockScript

end CovenantStaking.StakeTerms

namespace CovenantStaking.Request

variable {r : Request}

/-! ## The staker -/

/-- The staker is the key that the host derives at the path, if there is a path: a valid key, and
the one that was sent, if one was sent. Without a path the staker is the key that was sent. -/
def ResolvesTo (r : Request) (host : HostKeys) (staker : XOnlyKey) : Prop :=
  match r.derivationPath with
  | some path => ∃ derived, host path = .ok derived ∧ derived.validate = .ok () ∧
      (∀ sent ∈ r.stakerKey, sent = derived.xOnly) ∧ derived.xOnly = staker
  | none => r.stakerKey = some staker

def withStaker (r : Request) (staker : XOnlyKey) : Request :=
  { r with stakerKey := some staker }

theorem checkSentStaker_eq_ok_iff {path : KeyPath} {derived : XOnlyKey} {u : Unit} :
    r.checkSentStaker path derived = .ok u ↔ ∀ sent ∈ r.stakerKey, sent = derived := by
  unfold checkSentStaker
  cases r.stakerKey with
  | none => simp
  | some sent => simp

/-- The host derives a key at the request's path: a valid key, and the one that was sent, if one was
sent. -/
structure Derives (r : Request) (host : HostKeys) (path : KeyPath) (key : PublicKey) : Prop where
  sentPath : r.derivationPath = some path
  derived : host path = .ok key
  valid : key.validate = .ok ()
  sentKey : ∀ sent ∈ r.stakerKey, sent = key.xOnly

theorem deriveStaker_eq_ok_iff {host : HostKeys} {derived : Option PublicKey} {next : Request} :
    r.deriveStaker host = .ok (derived, next) ↔
      (r.derivationPath = none ∧ derived = none ∧ next = r) ∨
        ∃ path key, r.Derives host path key ∧ derived = some key ∧
          next = r.withStaker key.xOnly := by
  unfold deriveStaker
  cases hpath : r.derivationPath with
  | none =>
      simp only [Except.ok.injEq, Prod.mk.injEq, true_and]
      constructor
      · rintro ⟨rfl, rfl⟩
        exact .inl ⟨rfl, rfl⟩
      · rintro (⟨rfl, rfl⟩ | ⟨path, key, h, -⟩)
        · exact ⟨rfl, rfl⟩
        · cases hpath.symm.trans h.sentPath
  | some path =>
      simp only [bind_eq_ok_iff, checkSentStaker_eq_ok_iff, pure_eq_ok_iff, exists_const,
        Prod.mk.injEq, reduceCtorEq, false_and, false_or]
      constructor
      · rintro ⟨key, hhost, _, hvalid, hsent, rfl, rfl⟩
        exact ⟨path, key, ⟨hpath, hhost, hvalid, hsent⟩, rfl, by rw [withStaker, hpath]⟩
      · rintro ⟨path', key, h, rfl, rfl⟩
        cases hpath.symm.trans h.sentPath
        exact ⟨key, h.derived, (), h.valid, h.sentKey, rfl, by rw [withStaker, hpath]⟩

/-- Deriving leaves a request with a staker exactly when the staker resolves, and changes nothing
but the staker. -/
theorem deriveStaker_stakerKey_iff {host : HostKeys} {staker : XOnlyKey} {next : Request} :
    (∃ derived, r.deriveStaker host = .ok (derived, next)) ∧ next.stakerKey = some staker ↔
      r.ResolvesTo host staker ∧ next = r.withStaker staker := by
  simp only [deriveStaker_eq_ok_iff]
  unfold ResolvesTo
  constructor
  · rintro ⟨⟨_, ⟨hpath, -, rfl⟩ | ⟨path, key, h, -, rfl⟩⟩, hstaker⟩
    · rw [hpath]
      exact ⟨hstaker, by rw [withStaker, ← hstaker]⟩
    · cases hstaker
      rw [h.sentPath]
      exact ⟨⟨key, h.derived, h.valid, h.sentKey, rfl⟩, rfl⟩
  · rintro ⟨hresolves, rfl⟩
    refine ⟨?_, rfl⟩
    split at hresolves
    · rename_i path hpath
      obtain ⟨key, hhost, hvalid, hsent, rfl⟩ := hresolves
      exact ⟨some key, .inr ⟨path, key, ⟨hpath, hhost, hvalid, hsent⟩, rfl, rfl⟩⟩
    · rename_i hpath
      exact ⟨none, .inl ⟨hpath, rfl, by rw [withStaker, ← hresolves]⟩⟩

theorem deriveStaker_frame {host : HostKeys} {derived : Option PublicKey} {next : Request}
    (h : r.deriveStaker host = .ok (derived, next)) :
    next = { r with stakerKey := next.stakerKey } := by
  rcases deriveStaker_eq_ok_iff.mp h with ⟨-, -, rfl⟩ | ⟨path, key, -, -, rfl⟩
  · rfl
  · rfl

/-! ## The stake -/

/-- The fields other than the staker's key are those of a stake: there are finality providers and
covenant keys, the quorum can be reached, and the lock is one that a script can hold. -/
structure Describes (r : Request) (stake : StakeTerms) : Prop where
  finalityProviders : r.finalityProviders = some stake.finalityProviders
  finalityProviders_ne : stake.finalityProviders ≠ []
  covenantKeys : r.covenantKeys = some stake.covenantKeys
  covenantKeys_ne : stake.covenantKeys ≠ []
  covenantQuorum : r.covenantQuorum = some stake.covenantQuorum
  quorum_le : stake.covenantQuorum.toNat ≤ stake.covenantKeys.length
  timelock : r.timelock = some stake.timelock
  timelock_pos : 1 ≤ stake.timelock.toNat
  timelock_le : stake.timelock.toNat ≤ 0x7fffffff

theorem committee_eq_ok_iff {keys : List XOnlyKey} {quorum : UInt8} :
    r.committee = .ok (keys, quorum) ↔
      r.covenantKeys = some keys ∧ keys ≠ [] ∧ r.covenantQuorum = some quorum ∧
        quorum.toNat ≤ keys.length := by
  simp only [committee, requireCovenantKeys, requireQuorum, bind_eq_ok_iff,
    presentKeys_eq_ok_iff, present_eq_ok_iff, ensure_eq_ok_iff, exists_const, pure_eq_ok_iff,
    Prod.mk.injEq]
  constructor
  · rintro ⟨_, ⟨hkeys, hne⟩, _, hquorum, hle, rfl, rfl⟩
    exact ⟨hkeys, hne, hquorum, hle⟩
  · rintro ⟨hkeys, hne, hquorum, hle⟩
    exact ⟨keys, ⟨hkeys, hne⟩, quorum, hquorum, hle, rfl, rfl⟩

theorem ensureLockable_eq_ok_iff {blocks : UInt64} {u : Unit} :
    Tapscript.ensureLockable blocks = .ok u ↔ 1 ≤ blocks.toNat ∧ blocks.toNat ≤ 0x7fffffff :=
  ensure_eq_ok_iff

/-- The terms check the covenant's quorum by themselves, and as the scripts do. -/
theorem stakeTerms_eq_committee (r : Request) : r.stakeTerms = (do
    let (covenantKeys, covenantQuorum) ← r.committee
    let timelock ← r.requireTimelock
    Tapscript.ensureLockable timelock
    let staker ← r.requireStakerKey
    let finalityProviders ← r.requireProviders
    pure { staker, finalityProviders, covenantKeys, covenantQuorum, timelock }) := by
  simp only [stakeTerms, committee, bind_assoc, pure_bind]

theorem stakeTerms_eq_ok_iff {stake : StakeTerms} :
    r.stakeTerms = .ok stake ↔ r.Describes stake ∧ r.stakerKey = some stake.staker := by
  simp only [stakeTerms_eq_committee, requireTimelock, requireStakerKey, requireProviders,
    bind_eq_ok_iff, Prod.exists, committee_eq_ok_iff, present_eq_ok_iff, presentKeys_eq_ok_iff,
    ensureLockable_eq_ok_iff, exists_const, pure_eq_ok_iff]
  constructor
  · rintro ⟨_, _, ⟨hkeys, hkeysNe, hquorum, hle⟩, _, hlock, ⟨hpos, hmax⟩, _, hstaker, _,
      ⟨hproviders, hprovidersNe⟩, rfl⟩
    exact ⟨⟨hproviders, hprovidersNe, hkeys, hkeysNe, hquorum, hle, hlock, hpos, hmax⟩, hstaker⟩
  · rintro ⟨h, hstaker⟩
    exact ⟨_, _, ⟨h.covenantKeys, h.covenantKeys_ne, h.covenantQuorum, h.quorum_le⟩, _, h.timelock,
      ⟨h.timelock_pos, h.timelock_le⟩, _, hstaker, _, ⟨h.finalityProviders, h.finalityProviders_ne⟩,
      rfl⟩

/-- The stake does not depend on who the staker is. -/
theorem describes_withStaker_iff {staker : XOnlyKey} {stake : StakeTerms} :
    (r.withStaker staker).Describes stake ↔ r.Describes stake :=
  ⟨fun h => ⟨h.1, h.2, h.3, h.4, h.5, h.6, h.7, h.8, h.9⟩,
    fun h => ⟨h.1, h.2, h.3, h.4, h.5, h.6, h.7, h.8, h.9⟩⟩

/-- The stake that a request has once its staker is filled in. -/
theorem deriveStaker_stakeTerms_iff {host : HostKeys} {stake : StakeTerms} {next : Request} :
    (∃ derived, r.deriveStaker host = .ok (derived, next)) ∧ next.stakeTerms = .ok stake ↔
      r.ResolvesTo host stake.staker ∧ r.Describes stake ∧ next = r.withStaker stake.staker := by
  rw [stakeTerms_eq_ok_iff, and_comm (b := next.stakerKey = _), ← and_assoc,
    deriveStaker_stakerKey_iff]
  constructor
  · rintro ⟨⟨hresolves, rfl⟩, hstake⟩
    exact ⟨hresolves, describes_withStaker_iff.mp hstake, rfl⟩
  · rintro ⟨hresolves, hstake, rfl⟩
    exact ⟨⟨hresolves, rfl⟩, describes_withStaker_iff.mpr hstake⟩

/-! ## Scripts and leaves -/

variable {stake : StakeTerms}

theorem Describes.slashingScript_eq (h : r.Describes stake)
    (hstaker : r.stakerKey = some stake.staker) :
    r.slashingScript = .ok (Tapscript.slashing stake.staker stake.finalityProviders
      stake.covenantKeys stake.covenantQuorum) := by
  have hcovenant := committee_eq_ok_iff.mpr
    ⟨h.covenantKeys, h.covenantKeys_ne, h.covenantQuorum, h.quorum_le⟩
  simp only [slashingScript, requireStakerKey, requireProviders, bind_eq_ok_iff,
    present_eq_ok_iff, presentKeys_eq_ok_iff, pure_eq_ok_iff]
  exact ⟨_, hstaker, _, ⟨h.finalityProviders, h.finalityProviders_ne⟩, _, hcovenant, rfl⟩

theorem Describes.unbondingScript_eq (h : r.Describes stake)
    (hstaker : r.stakerKey = some stake.staker) :
    r.unbondingScript = .ok
      (Tapscript.unbonding stake.staker stake.covenantKeys stake.covenantQuorum) := by
  have hcovenant := committee_eq_ok_iff.mpr
    ⟨h.covenantKeys, h.covenantKeys_ne, h.covenantQuorum, h.quorum_le⟩
  simp only [unbondingScript, requireStakerKey, bind_eq_ok_iff, present_eq_ok_iff, pure_eq_ok_iff]
  exact ⟨_, hstaker, _, hcovenant, rfl⟩

theorem Describes.timelockScript_eq (h : r.Describes stake)
    (hstaker : r.stakerKey = some stake.staker) :
    r.timelockScript = .ok (Tapscript.lockedSpend stake.staker stake.timelock) := by
  simp only [timelockScript, Tapscript.timelock, requireStakerKey, requireTimelock,
    bind_eq_ok_iff, present_eq_ok_iff, ensureLockable_eq_ok_iff, exists_const, pure_eq_ok_iff]
  exact ⟨_, hstaker, _, h.timelock, ⟨h.timelock_pos, h.timelock_le⟩, rfl⟩

variable [Crypto]

theorem Describes.slashingLeaf_eq (h : r.Describes stake)
    (hstaker : r.stakerKey = some stake.staker) :
    r.slashingLeaf = .ok (Tapscript.leaf (Tapscript.slashing stake.staker stake.finalityProviders
      stake.covenantKeys stake.covenantQuorum)) := by
  rw [slashingLeaf, h.slashingScript_eq hstaker]
  rfl

theorem Describes.unbondingLeaf_eq (h : r.Describes stake)
    (hstaker : r.stakerKey = some stake.staker) :
    r.unbondingLeaf = .ok (Tapscript.leaf
      (Tapscript.unbonding stake.staker stake.covenantKeys stake.covenantQuorum)) := by
  rw [unbondingLeaf, h.unbondingScript_eq hstaker]
  rfl

theorem Describes.timelockLeaf_eq (h : r.Describes stake)
    (hstaker : r.stakerKey = some stake.staker) :
    r.timelockLeaf =
      .ok (Tapscript.leaf (Tapscript.lockedSpend stake.staker stake.timelock)) := by
  rw [timelockLeaf, h.timelockScript_eq hstaker]
  rfl

theorem Describes.leaves_eq (h : r.Describes stake) (hstaker : r.stakerKey = some stake.staker) :
    r.leaves = .ok stake.leaves := by
  rw [leaves, h.slashingLeaf_eq hstaker, h.unbondingLeaf_eq hstaker, h.timelockLeaf_eq hstaker]
  rfl

theorem Describes.unbondedRoot_eq (h : r.Describes stake)
    (hstaker : r.stakerKey = some stake.staker) :
    r.unbondedRoot = .ok (stake.leaves.slashing.branch stake.leaves.timelock) := by
  rw [unbondedRoot, h.slashingLeaf_eq hstaker, h.timelockLeaf_eq hstaker]
  rfl

end CovenantStaking.Request

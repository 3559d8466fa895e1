import CovenantStaking.Proofs.Session.Staking

/-!
# The leaves of the terms

The terms that are shown and the leaves that are checked are built apart from each other, and check
the fields of a request in different orders. They are to be had for the same requests, and the
leaves are then those of the stake in the terms. The root after unbonding, which is built without
the unbonding leaf, is the one that all the leaves give.
-/

namespace CovenantStaking.Request

variable {r : Request}

/-! ## Leaves -/

theorem exists_stakeTerms_of_leaves [Crypto] {leaves : StakeLeaves} (h : r.leaves = .ok leaves) :
    ∃ stake, r.stakeTerms = .ok stake := by
  simp only [Request.leaves, slashingLeaf, unbondingLeaf, timelockLeaf, bind_eq_ok_iff,
    pure_eq_ok_iff] at h
  obtain ⟨_, ⟨slashing, hslashing, -⟩, _, -, _, ⟨timelock, htimelock, -⟩, -⟩ := h
  exact exists_stakeTerms_of_scripts hslashing htimelock

theorem leaves_of_stakeTerms [Crypto] {stake : StakeTerms} (h : r.stakeTerms = .ok stake) :
    r.leaves = .ok stake.leaves := by
  obtain ⟨hdescribes, hstaker⟩ := stakeTerms_eq_ok_iff.mp h
  exact hdescribes.leaves_eq hstaker

theorem leaves_eq_ok_iff [Crypto] {leaves : StakeLeaves} :
    r.leaves = .ok leaves ↔ ∃ stake, r.stakeTerms = .ok stake ∧ stake.leaves = leaves := by
  constructor
  · intro h
    obtain ⟨stake, hstake⟩ := exists_stakeTerms_of_leaves h
    exact ⟨stake, hstake, Except.ok.inj ((leaves_of_stakeTerms hstake).symm.trans h)⟩
  · rintro ⟨stake, hstake, rfl⟩
    exact leaves_of_stakeTerms hstake

theorem terms_eq_ok_iff_of_locksStake {action : Action} (haction : r.action = some action)
    (hlocks : action.locksStake) {derived : Option PublicKey} {terms : Terms} :
    r.terms derived = .ok terms ↔
      ∃ stake, r.stakeTerms = .ok stake ∧ Terms.locking action stake = terms := by
  rw [terms_of_locksStake haction hlocks, map_eq_ok_iff]

theorem timelockScript_of_stakeTerms {stake : StakeTerms} (h : r.stakeTerms = .ok stake) :
    Tapscript.timelock stake.staker stake.timelock = .ok stake.timelockScript := by
  obtain ⟨hdescribes, -⟩ := stakeTerms_eq_ok_iff.mp h
  have hlockable : Tapscript.ensureLockable stake.timelock = .ok () :=
    ensureLockable_eq_ok_iff.mpr ⟨hdescribes.timelock_pos, hdescribes.timelock_le⟩
  rw [Tapscript.timelock, hlockable]
  rfl

/-- Where coins are to be locked, there are terms if and only if there are leaves, and the leaves
hold the scripts of the stake that is in the terms. -/
theorem terms_agree_with_leaves [Crypto] {action : Action} (haction : r.action = some action)
    (hlocks : action.locksStake) (derived : Option PublicKey) :
    ((∃ terms, r.terms derived = .ok terms) ↔ ∃ leaves, r.leaves = .ok leaves) ∧
    ∀ terms leaves, r.terms derived = .ok terms → r.leaves = .ok leaves →
      ∃ stake timelockScript, terms = .locking action stake ∧
        Tapscript.timelock stake.staker stake.timelock = .ok timelockScript ∧
        leaves =
          { slashing := Tapscript.leaf (Tapscript.slashing stake.staker stake.finalityProviders
              stake.covenantKeys stake.covenantQuorum)
            unbonding := Tapscript.leaf
              (Tapscript.unbonding stake.staker stake.covenantKeys stake.covenantQuorum)
            timelock := Tapscript.leaf timelockScript } := by
  simp only [terms_eq_ok_iff_of_locksStake haction hlocks, leaves_eq_ok_iff]
  constructor
  · constructor
    · rintro ⟨_, stake, hstake, -⟩
      exact ⟨_, stake, hstake, rfl⟩
    · rintro ⟨_, stake, hstake, -⟩
      exact ⟨_, stake, hstake, rfl⟩
  · rintro _ _ ⟨stake, hstake, rfl⟩ ⟨stake', hstake', rfl⟩
    obtain rfl := Except.ok.inj (hstake.symm.trans hstake')
    exact ⟨stake, _, rfl, timelockScript_of_stakeTerms hstake, rfl⟩

theorem terms_agree_with_leaves_loneStake :
    let r := ofStake .expansion loneStake
    r.action = some .expansion ∧ Action.expansion.locksStake ∧
      r.terms none = .ok (.expansion loneStake) ∧ ∃ leaves, r.leaves = .ok leaves := by
  intro r
  have hterms : r.terms none = .ok (.expansion loneStake) := rfl
  exact ⟨rfl, rfl, hterms, (terms_agree_with_leaves rfl rfl none).1.mp ⟨_, hterms⟩⟩

/-! ## The root after unbonding -/

/-- The unbonding leaf asks for nothing that the slashing leaf does not ask for. -/
theorem exists_unbondingLeaf_of_slashingLeaf [Crypto] {leaf : TapNode}
    (h : r.slashingLeaf = .ok leaf) : ∃ leaf, r.unbondingLeaf = .ok leaf := by
  simp only [slashingLeaf, slashingScript, bind_eq_ok_iff, pure_eq_ok_iff] at h
  obtain ⟨_, ⟨staker, hstaker, _, -, covenant, hcovenant, -⟩, -⟩ := h
  simp only [unbondingLeaf, unbondingScript, bind_eq_ok_iff, pure_eq_ok_iff]
  exact ⟨_, _, ⟨staker, hstaker, covenant, hcovenant, rfl⟩, rfl⟩

/-- The root after unbonding, and the failure to build it, is as if all the leaves were built. -/
theorem unbondedRoot_eq_of_leaves [Crypto] (r : Request) :
    r.unbondedRoot = (do
      let leaves ← r.leaves
      pure leaves.unbondedRoot) := by
  simp only [unbondedRoot, leaves, bind_assoc, pure_bind]
  refine bind_congr_of_ok fun slashing hslashing => ?_
  obtain ⟨unbonding, hunbonding⟩ := exists_unbondingLeaf_of_slashingLeaf hslashing
  rw [hunbonding]
  rfl

end CovenantStaking.Request

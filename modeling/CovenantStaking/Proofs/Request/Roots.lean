import CovenantStaking.Proofs.Request.Stake
import CovenantStaking.Proofs.Tapscript.Layout
import CovenantStaking.Proofs.Tapscript.Roots

/-!
# The roots of a request

The trees under the roots that outputs commit to: which stake a root stands for, and that the roots
of the three steps of a stake cannot be taken for one another.
-/

namespace CovenantStaking

/-! ## The trees of a stake -/

namespace StakeTerms

def stakedTree (stake : StakeTerms) : ScriptTree :=
  .branch (.leaf stake.slashingScript)
    (.branch (.leaf stake.unbondingScript) (.leaf stake.timelockScript))

def unbondedTree (stake : StakeTerms) : ScriptTree :=
  .branch (.leaf stake.slashingScript) (.leaf stake.timelockScript)

/-- Everything that is hashed on the way to the roots of a stake. -/
def preimages [Crypto] (stake : StakeTerms) : List Preimage :=
  stake.unbondedTree.preimage :: stake.stakedTree.preimages

theorem preimages_eq [Crypto] (stake : StakeTerms) :
    stake.preimages = [stake.unbondedTree.preimage, stake.stakedTree.preimage,
      (ScriptTree.leaf stake.slashingScript).preimage,
      (ScriptTree.branch (.leaf stake.unbondingScript) (.leaf stake.timelockScript)).preimage,
      (ScriptTree.leaf stake.unbondingScript).preimage,
      (ScriptTree.leaf stake.timelockScript).preimage] :=
  rfl

theorem preimages_stakedTree_subset [Crypto] (stake : StakeTerms) :
    stake.stakedTree.preimages ⊆ stake.preimages :=
  List.subset_cons_self _ _

theorem preimages_unbondedTree_subset [Crypto] (stake : StakeTerms) :
    stake.unbondedTree.preimages ⊆ stake.preimages := by
  rw [preimages_eq]
  simp [unbondedTree, ScriptTree.preimages]

theorem preimages_timelockScript_subset [Crypto] (stake : StakeTerms) :
    (ScriptTree.leaf stake.timelockScript).preimages ⊆ stake.preimages := by
  rw [preimages_eq]
  simp [ScriptTree.preimages]

variable {stake stake' : StakeTerms}

/-- The nodes of the two trees of a stake, each made of those below it; the branch is the one above
the unbonding leaf and that of the lock. -/
structure HasNodes [Crypto] (stake : StakeTerms) (leaves : StakeLeaves)
    (branch staked unbonded : TapNode) : Prop where
  slashing : Tapscript.leaf stake.slashingScript = leaves.slashing
  unbonding : Tapscript.leaf stake.unbondingScript = leaves.unbonding
  timelock : Tapscript.leaf stake.timelockScript = leaves.timelock
  staked : leaves.slashing.branch branch = staked
  unbonded : leaves.slashing.branch leaves.timelock = unbonded
  branch : leaves.unbonding.branch leaves.timelock = branch

section

variable [Crypto] {leaves : StakeLeaves} {branch staked unbonded : TapNode}

theorem HasNodes.root_stakedTree (h : stake.HasNodes leaves branch staked unbonded) :
    stake.stakedTree.root = staked := by
  simp only [stakedTree, ScriptTree.root, h.slashing, h.unbonding, h.timelock, h.branch, h.staked]

theorem HasNodes.root_unbondedTree (h : stake.HasNodes leaves branch staked unbonded) :
    stake.unbondedTree.root = unbonded := by
  simp only [unbondedTree, ScriptTree.root, h.slashing, h.timelock, h.unbonded]

theorem HasNodes.map_preimages (h : stake.HasNodes leaves branch staked unbonded) :
    stake.preimages.map (TapNode.mk ∘ Preimage.digest) =
      [unbonded, staked, leaves.slashing, branch, leaves.unbonding, leaves.timelock] := by
  rw [preimages_eq]
  simp only [List.map_cons, List.map_nil, Function.comp_apply, ← ScriptTree.root_eq,
    h.root_stakedTree, h.root_unbondedTree]
  simp only [ScriptTree.root, h.slashing, h.unbonding, h.timelock, h.branch]

end

/-- The scripts of slashing and of the lock hold between them all there is to a stake. -/
theorem eq_of_scripts (hlock : stake.timelock.toNat ≤ Tapscript.maxTimelock)
    (hlock' : stake'.timelock.toNat ≤ Tapscript.maxTimelock)
    (hslashing : stake.slashingScript = stake'.slashingScript)
    (htimelock : stake.timelockScript = stake'.timelockScript) : stake = stake' := by
  obtain ⟨hstaker, hproviders, hcovenant, hquorum⟩ := Tapscript.slashing_inj hslashing
  obtain ⟨-, hblocks⟩ := Tapscript.lockedSpend_inj hlock hlock' htimelock
  cases stake
  cases stake'
  simp only at hstaker hproviders hcovenant hquorum hblocks
  rw [hstaker, hproviders, hcovenant, hquorum, hblocks]

theorem slashingScript_ne_timelockScript : stake.slashingScript ≠ stake'.timelockScript :=
  Tapscript.slashing_ne_lockedSpend

theorem unbondingScript_ne_timelockScript : stake.unbondingScript ≠ stake'.timelockScript := by
  rw [unbondingScript, Tapscript.unbonding_eq_slashing]
  exact Tapscript.slashing_ne_lockedSpend

theorem alike_stakedTree_iff (hlock : stake.timelock.toNat ≤ Tapscript.maxTimelock)
    (hlock' : stake'.timelock.toNat ≤ Tapscript.maxTimelock) :
    ScriptTree.Alike stake.stakedTree stake'.stakedTree ↔ stake = stake' := by
  constructor
  · intro h
    simp only [stakedTree, ScriptTree.alike_branch_iff, ScriptTree.alike_leaf_iff,
      ScriptTree.not_alike_leaf_branch, false_and, or_false] at h
    obtain ⟨hslashing, ⟨-, htimelock⟩ | ⟨hcrossed, -⟩⟩ := h
    · exact eq_of_scripts hlock hlock' hslashing htimelock
    · exact absurd hcrossed unbondingScript_ne_timelockScript
  · rintro rfl
    exact ScriptTree.Alike.refl _

theorem alike_unbondedTree_iff (hlock : stake.timelock.toNat ≤ Tapscript.maxTimelock)
    (hlock' : stake'.timelock.toNat ≤ Tapscript.maxTimelock) :
    ScriptTree.Alike stake.unbondedTree stake'.unbondedTree ↔ stake = stake' := by
  constructor
  · intro h
    simp only [unbondedTree, ScriptTree.alike_branch_iff, ScriptTree.alike_leaf_iff] at h
    obtain ⟨hslashing, htimelock⟩ | ⟨hcrossed, -⟩ := h
    · exact eq_of_scripts hlock hlock' hslashing htimelock
    · exact absurd hcrossed slashingScript_ne_timelockScript
  · rintro rfl
    exact ScriptTree.Alike.refl _

end StakeTerms

namespace Request

variable {a b c r : Request}

/-! ## The trees of a request -/

def stakedTree (r : Request) : Except Failure ScriptTree := do
  let slashing ← r.slashingScript
  let unbonding ← r.unbondingScript
  let timelock ← r.timelockScript
  pure (.branch (.leaf slashing) (.branch (.leaf unbonding) (.leaf timelock)))

def unbondedTree (r : Request) : Except Failure ScriptTree := do
  let slashing ← r.slashingScript
  let timelock ← r.timelockScript
  pure (.branch (.leaf slashing) (.leaf timelock))

/-- The one leaf that the change of a slashing commits to. -/
def changeTree (r : Request) : Except Failure ScriptTree := do
  let timelock ← r.timelockScript
  pure (.leaf timelock)

/-- What is hashed on the way to the root of a tree, if there is a tree. -/
def preimages [Crypto] : Except Failure ScriptTree → List Preimage
  | .ok tree => tree.preimages
  | .error _ => []

theorem stakingRoot_eq [Crypto] : r.stakingRoot = ScriptTree.root <$> r.stakedTree := by
  simp only [stakingRoot, stakedTree, leaves, slashingLeaf, unbondingLeaf, timelockLeaf, bind_assoc,
    pure_bind, map_bind, map_pure]
  rfl

theorem unbondedRoot_eq [Crypto] : r.unbondedRoot = ScriptTree.root <$> r.unbondedTree := by
  simp only [unbondedRoot, unbondedTree, slashingLeaf, timelockLeaf, bind_assoc, pure_bind,
    map_bind, map_pure]
  rfl

theorem timelockLeaf_eq [Crypto] : r.timelockLeaf = ScriptTree.root <$> r.changeTree := by
  simp only [timelockLeaf, changeTree, map_bind, map_pure]
  rfl

/-! ## The stake under a root -/

/-- A request from which the scripts of slashing and of the lock can be built describes a stake. -/
theorem exists_stakeTerms_of_scripts {slashing timelock : Bytes}
    (hslashing : r.slashingScript = .ok slashing) (htimelock : r.timelockScript = .ok timelock) :
    ∃ stake, r.stakeTerms = .ok stake := by
  simp only [slashingScript, timelockScript, Tapscript.timelock, requireStakerKey, requireProviders,
    requireTimelock, bind_eq_ok_iff, Prod.exists, committee_eq_ok_iff, present_eq_ok_iff,
    presentKeys_eq_ok_iff, ensureLockable_eq_ok_iff, exists_const, pure_eq_ok_iff]
    at hslashing htimelock
  obtain ⟨staker, hstaker, providers, ⟨hproviders, hprovidersNe⟩, covenant, quorum,
    ⟨hcovenant, hcovenantNe, hquorum, hle⟩, -⟩ := hslashing
  obtain ⟨-, -, blocks, hblocks, ⟨hpos, hmax⟩, -⟩ := htimelock
  exact ⟨⟨staker, providers, covenant, quorum, blocks⟩, stakeTerms_eq_ok_iff.mpr
    ⟨⟨hproviders, hprovidersNe, hcovenant, hcovenantNe, hquorum, hle, hblocks, hpos, hmax⟩,
      hstaker⟩⟩

theorem stakedTree_eq_ok_iff {tree : ScriptTree} :
    r.stakedTree = .ok tree ↔ ∃ stake, r.stakeTerms = .ok stake ∧ stake.stakedTree = tree := by
  constructor
  · intro h
    simp only [stakedTree, bind_eq_ok_iff, pure_eq_ok_iff] at h
    obtain ⟨slashing, hslashing, unbonding, hunbonding, timelock, htimelock, rfl⟩ := h
    obtain ⟨stake, hstake⟩ := exists_stakeTerms_of_scripts hslashing htimelock
    obtain ⟨hdescribes, hstaker⟩ := stakeTerms_eq_ok_iff.mp hstake
    cases hslashing.symm.trans (hdescribes.slashingScript_eq hstaker)
    cases hunbonding.symm.trans (hdescribes.unbondingScript_eq hstaker)
    cases htimelock.symm.trans (hdescribes.timelockScript_eq hstaker)
    exact ⟨stake, hstake, rfl⟩
  · rintro ⟨stake, hstake, rfl⟩
    obtain ⟨hdescribes, hstaker⟩ := stakeTerms_eq_ok_iff.mp hstake
    rw [stakedTree, hdescribes.slashingScript_eq hstaker, hdescribes.unbondingScript_eq hstaker,
      hdescribes.timelockScript_eq hstaker]
    rfl

theorem unbondedTree_eq_ok_iff {tree : ScriptTree} :
    r.unbondedTree = .ok tree ↔ ∃ stake, r.stakeTerms = .ok stake ∧ stake.unbondedTree = tree := by
  constructor
  · intro h
    simp only [unbondedTree, bind_eq_ok_iff, pure_eq_ok_iff] at h
    obtain ⟨slashing, hslashing, timelock, htimelock, rfl⟩ := h
    obtain ⟨stake, hstake⟩ := exists_stakeTerms_of_scripts hslashing htimelock
    obtain ⟨hdescribes, hstaker⟩ := stakeTerms_eq_ok_iff.mp hstake
    cases hslashing.symm.trans (hdescribes.slashingScript_eq hstaker)
    cases htimelock.symm.trans (hdescribes.timelockScript_eq hstaker)
    exact ⟨stake, hstake, rfl⟩
  · rintro ⟨stake, hstake, rfl⟩
    obtain ⟨hdescribes, hstaker⟩ := stakeTerms_eq_ok_iff.mp hstake
    rw [unbondedTree, hdescribes.slashingScript_eq hstaker, hdescribes.timelockScript_eq hstaker]
    rfl

theorem stakedTree_of_stakeTerms {stake : StakeTerms} (h : r.stakeTerms = .ok stake) :
    r.stakedTree = .ok stake.stakedTree :=
  stakedTree_eq_ok_iff.mpr ⟨stake, h, rfl⟩

theorem unbondedTree_of_stakeTerms {stake : StakeTerms} (h : r.stakeTerms = .ok stake) :
    r.unbondedTree = .ok stake.unbondedTree :=
  unbondedTree_eq_ok_iff.mpr ⟨stake, h, rfl⟩

theorem stakingRoot_of_stakeTerms [Crypto] {stake : StakeTerms} (h : r.stakeTerms = .ok stake) :
    r.stakingRoot = .ok stake.stakedTree.root := by
  rw [stakingRoot_eq, stakedTree_of_stakeTerms h]
  rfl

theorem unbondedRoot_of_stakeTerms [Crypto] {stake : StakeTerms} (h : r.stakeTerms = .ok stake) :
    r.unbondedRoot = .ok stake.unbondedTree.root := by
  rw [unbondedRoot_eq, unbondedTree_of_stakeTerms h]
  rfl

theorem lockable_of_stakeTerms {stake : StakeTerms} (h : r.stakeTerms = .ok stake) :
    stake.timelock.toNat ≤ Tapscript.maxTimelock :=
  (stakeTerms_eq_ok_iff.mp h).1.timelock_le

structure SameStake (a b : Request) : Prop where
  stakerKey : a.stakerKey = b.stakerKey
  finalityProviders : a.finalityProviders = b.finalityProviders
  covenantKeys : a.covenantKeys = b.covenantKeys
  covenantQuorum : a.covenantQuorum = b.covenantQuorum
  timelock : a.timelock = b.timelock

theorem sameStake_iff {stake stake' : StakeTerms} (ha : a.stakeTerms = .ok stake)
    (hb : b.stakeTerms = .ok stake') : SameStake a b ↔ stake = stake' := by
  obtain ⟨hstake, hstaker⟩ := stakeTerms_eq_ok_iff.mp ha
  obtain ⟨hstake', hstaker'⟩ := stakeTerms_eq_ok_iff.mp hb
  constructor
  · intro h
    have hkey := h.stakerKey
    have hproviders := h.finalityProviders
    have hcovenant := h.covenantKeys
    have hquorum := h.covenantQuorum
    have hlock := h.timelock
    rw [hstaker, hstaker', Option.some.injEq] at hkey
    rw [hstake.finalityProviders, hstake'.finalityProviders, Option.some.injEq] at hproviders
    rw [hstake.covenantKeys, hstake'.covenantKeys, Option.some.injEq] at hcovenant
    rw [hstake.covenantQuorum, hstake'.covenantQuorum, Option.some.injEq] at hquorum
    rw [hstake.timelock, hstake'.timelock, Option.some.injEq] at hlock
    cases stake
    cases stake'
    simp only at hkey hproviders hcovenant hquorum hlock
    rw [hkey, hproviders, hcovenant, hquorum, hlock]
  · rintro rfl
    exact ⟨hstaker.trans hstaker'.symm,
      hstake.finalityProviders.trans hstake'.finalityProviders.symm,
      hstake.covenantKeys.trans hstake'.covenantKeys.symm,
      hstake.covenantQuorum.trans hstake'.covenantQuorum.symm,
      hstake.timelock.trans hstake'.timelock.symm⟩

/-! ## A stake of one provider -/

/-- The request for an action on a stake, with nothing else in it. -/
def ofStake (action : Action) (stake : StakeTerms) : Request where
  action := some action
  finalityProviders := some stake.finalityProviders
  covenantKeys := some stake.covenantKeys
  covenantQuorum := some stake.covenantQuorum
  stakerKey := some stake.staker
  timelock := some stake.timelock

/-- A stake of one finality provider, under a covenant of one key. -/
def loneStake : StakeTerms where
  staker := ⟨.zero 32⟩
  finalityProviders := [⟨.zero 32⟩]
  covenantKeys := [⟨.zero 32⟩]
  covenantQuorum := 1
  timelock := 144

theorem stakeTerms_loneStake (action : Action) :
    (ofStake action loneStake).stakeTerms = .ok loneStake :=
  rfl

def loneLeaves : StakeLeaves where
  slashing := ⟨.ofNat 32 0xe7e3cc49d196a10d8804861bec7eb411544c78d9f6bf8958fd4893bc7c6e15d8⟩
  unbonding := ⟨.ofNat 32 0xfbc8d201cc8ed33494a7406cab8cf3fa42106a917e4af8390a0fc19732630c76⟩
  timelock := ⟨.ofNat 32 0x4adcca156413ffb170c21bf7e3bc351941e3b03838237089e21f8109c9841016⟩

/-- The branch above the unbonding leaf and the one of the lock. -/
def loneBranch : TapNode :=
  ⟨.ofNat 32 0x60ba4b954b40b351cc6ae78476164b69aa6363cf0fe7fe6e7c02538303316564⟩

def loneStakedRoot : TapNode :=
  ⟨.ofNat 32 0x7fe63c85acf4e5a32028f19470f7f5e25c926f383ffc1448abdfb8a6a508c83c⟩

def loneUnbondedRoot : TapNode :=
  ⟨.ofNat 32 0x74761d25bffd8a127517561d55958d56a93db8403650d7b0dd2872442bf0f26a⟩

-- each digest is computed once, and from the digests below it
theorem hasNodes_loneStake :
    loneStake.HasNodes loneLeaves loneBranch loneStakedRoot loneUnbondedRoot where
  slashing := by decide +kernel
  unbonding := by decide +kernel
  timelock := by decide +kernel
  branch := by decide +kernel
  staked := by decide +kernel
  unbonded := by decide +kernel

theorem digestsApart_loneStake : DigestsApart loneStake.preimages := by
  refine digestsApart_of_nodup (.of_map TapNode.mk ?_)
  rw [List.map_map, hasNodes_loneStake.map_preimages]
  decide

/-! ## Two stakes of the same keys -/

def pairStake : StakeTerms where
  staker := ⟨.zero 32⟩
  finalityProviders := [⟨.ofNat 32 1⟩, ⟨.ofNat 32 2⟩]
  covenantKeys := [⟨.ofNat 32 3⟩, ⟨.ofNat 32 4⟩]
  covenantQuorum := 2
  timelock := 144

/-- The same keys, each list in the other order. -/
def turnedStake : StakeTerms :=
  { pairStake with
    finalityProviders := [⟨.ofNat 32 2⟩, ⟨.ofNat 32 1⟩]
    covenantKeys := [⟨.ofNat 32 4⟩, ⟨.ofNat 32 3⟩] }

theorem hasNodes_pairStake : pairStake.HasNodes
    { slashing := ⟨.ofNat 32 0x6657def916dd1db394039afefc0514e02e7668e54e157e75907011115dd37d90⟩
      unbonding := ⟨.ofNat 32 0x9cc35409bf957bbcffac051ba90019dc20c7e11f36f9afb5aee28e6f804fc12d⟩
      timelock := loneLeaves.timelock }
    ⟨.ofNat 32 0x052e4b6cd3b25a9cb5d6ae3b3b74a8d1a079672d43db26c50f3c6af13e4faac4⟩
    ⟨.ofNat 32 0x9f3b19066d9a5f93157160d455b69d0629facd8ff9190e9bcd83aa0a5d272b91⟩
    ⟨.ofNat 32 0xb7af6d8ff985fa892afb494263b745e047e604c6ddc74f55e518abf5113e96ef⟩ where
  slashing := by decide +kernel
  unbonding := by decide +kernel
  timelock := hasNodes_loneStake.timelock
  branch := by decide +kernel
  staked := by decide +kernel
  unbonded := by decide +kernel

theorem hasNodes_turnedStake : turnedStake.HasNodes
    { slashing := ⟨.ofNat 32 0xae1b02f741091cc19a2edb5c8bb50498db8c5e7e4962037e735a72d9ada11ead⟩
      unbonding := ⟨.ofNat 32 0x3affc773d4cb4d68fc1eb0be44518a9fb5b2d0c95dde426e1757bdd68c1d9012⟩
      timelock := loneLeaves.timelock }
    ⟨.ofNat 32 0xd48c53873571544ce151eb51af105ec20efd5fbddae6c1d0ac172f7815057081⟩
    ⟨.ofNat 32 0xd1f051142ea08110bbd78486ad5e3e1c524f4756683b533520a4572e8b8f911d⟩
    ⟨.ofNat 32 0x303b0ac15cf86484a94fb921d779fe9c6ac8be1e18b491a24bbefa6893c52d30⟩ where
  slashing := by decide +kernel
  unbonding := by decide +kernel
  timelock := hasNodes_loneStake.timelock
  branch := by decide +kernel
  staked := by decide +kernel
  unbonded := by decide +kernel

/-- All that is hashed for the two has different digests but for the script of the lock, which is
the same script. -/
theorem digestsApart_pairStake_turnedStake :
    DigestsApart (pairStake.preimages ++ turnedStake.preimages) := by
  have hapart : DigestsApart (pairStake.preimages ++ turnedStake.preimages.dropLast) := by
    refine digestsApart_of_nodup (.of_map TapNode.mk ?_)
    rw [List.map_map, List.map_append, List.map_dropLast, hasNodes_pairStake.map_preimages,
      hasNodes_turnedStake.map_preimages]
    decide
  have hlock : turnedStake.preimages =
      turnedStake.preimages.dropLast ++ [(ScriptTree.leaf pairStake.timelockScript).preimage] :=
    rfl
  refine hapart.mono (List.append_subset.mpr ⟨List.subset_append_left _ _, ?_⟩)
  intro p hp
  rw [hlock, List.mem_append, List.mem_singleton] at hp
  rcases hp with hp | rfl
  · exact List.mem_append_right _ hp
  · exact List.mem_append_left _
      (pairStake.preimages_timelockScript_subset (ScriptTree.preimage_mem _))

/-! ## The stake a root stands for -/

/-- Two roots are equal exactly when they stand for one stake, for every way to make a tree of a
stake that keeps different stakes apart. -/
theorem root_eq_iff_sameStake [Crypto] {build : Request → Except Failure ScriptTree}
    {tree : StakeTerms → ScriptTree}
    (hbuild : ∀ {r : Request} {t : ScriptTree},
      build r = .ok t ↔ ∃ stake, r.stakeTerms = .ok stake ∧ tree stake = t)
    (halike : ∀ {stake stake' : StakeTerms}, stake.timelock.toNat ≤ Tapscript.maxTimelock →
      stake'.timelock.toNat ≤ Tapscript.maxTimelock →
      (ScriptTree.Alike (tree stake) (tree stake') ↔ stake = stake'))
    {root root' : TapNode} (ha : ScriptTree.root <$> build a = .ok root)
    (hb : ScriptTree.root <$> build b = .ok root')
    (hapart : DigestsApart (preimages (build a) ++ preimages (build b))) :
    root = root' ↔ SameStake a b := by
  obtain ⟨_, htree, rfl⟩ := map_eq_ok_iff.mp ha
  obtain ⟨_, htree', rfl⟩ := map_eq_ok_iff.mp hb
  rw [htree, htree'] at hapart
  obtain ⟨stake, hstake, rfl⟩ := hbuild.mp htree
  obtain ⟨stake', hstake', rfl⟩ := hbuild.mp htree'
  rw [ScriptTree.root_eq_iff_alike hapart (List.subset_append_left _ _)
      (List.subset_append_right _ _), sameStake_iff hstake hstake',
    halike (lockable_of_stakeTerms hstake) (lockable_of_stakeTerms hstake')]

/-- Two roots of staked outputs are equal exactly when they stand for one stake, and so are two
roots of unbonded outputs, as far as what is hashed for the two has different digests. -/
theorem roots_eq_iff_sameStake [Crypto] (a b : Request) :
    (∀ root root', a.stakingRoot = .ok root → b.stakingRoot = .ok root' →
      DigestsApart (preimages a.stakedTree ++ preimages b.stakedTree) →
      (root = root' ↔ SameStake a b)) ∧
    (∀ root root', a.unbondedRoot = .ok root → b.unbondedRoot = .ok root' →
      DigestsApart (preimages a.unbondedTree ++ preimages b.unbondedTree) →
      (root = root' ↔ SameStake a b)) := by
  constructor
  · intro root root' ha hb hapart
    rw [stakingRoot_eq] at ha hb
    exact root_eq_iff_sameStake stakedTree_eq_ok_iff StakeTerms.alike_stakedTree_iff ha hb hapart
  · intro root root' ha hb hapart
    rw [unbondedRoot_eq] at ha hb
    exact root_eq_iff_sameStake unbondedTree_eq_ok_iff StakeTerms.alike_unbondedTree_iff ha hb
      hapart

theorem roots_ne_of_turnedStake :
    let a := ofStake .staking pairStake
    let b := ofStake .staking turnedStake
    ¬SameStake a b ∧
    (∃ root root', a.stakingRoot = .ok root ∧ b.stakingRoot = .ok root' ∧
      DigestsApart (preimages a.stakedTree ++ preimages b.stakedTree) ∧ root ≠ root') ∧
    (∃ root root', a.unbondedRoot = .ok root ∧ b.unbondedRoot = .ok root' ∧
      DigestsApart (preimages a.unbondedTree ++ preimages b.unbondedTree) ∧ root ≠ root') := by
  intro a b
  have ha : a.stakeTerms = .ok pairStake := rfl
  have hb : b.stakeTerms = .ok turnedStake := rfl
  have hne : ¬SameStake a b := fun h => absurd h.finalityProviders (by decide)
  refine ⟨hne, ?_, ?_⟩
  · have hapart : DigestsApart (preimages a.stakedTree ++ preimages b.stakedTree) := by
      rw [stakedTree_of_stakeTerms ha, stakedTree_of_stakeTerms hb]
      exact digestsApart_pairStake_turnedStake.mono (List.append_subset.mpr
        ⟨List.subset_append_of_subset_left _ pairStake.preimages_stakedTree_subset,
          List.subset_append_of_subset_right _ turnedStake.preimages_stakedTree_subset⟩)
    have hroot := stakingRoot_of_stakeTerms ha
    have hroot' := stakingRoot_of_stakeTerms hb
    exact ⟨_, _, hroot, hroot', hapart, fun heq =>
      hne (((roots_eq_iff_sameStake a b).1 _ _ hroot hroot' hapart).mp heq)⟩
  · have hapart : DigestsApart (preimages a.unbondedTree ++ preimages b.unbondedTree) := by
      rw [unbondedTree_of_stakeTerms ha, unbondedTree_of_stakeTerms hb]
      exact digestsApart_pairStake_turnedStake.mono (List.append_subset.mpr
        ⟨List.subset_append_of_subset_left _ pairStake.preimages_unbondedTree_subset,
          List.subset_append_of_subset_right _ turnedStake.preimages_unbondedTree_subset⟩)
    have hroot := unbondedRoot_of_stakeTerms ha
    have hroot' := unbondedRoot_of_stakeTerms hb
    exact ⟨_, _, hroot, hroot', hapart, fun heq =>
      hne (((roots_eq_iff_sameStake a b).2 _ _ hroot hroot' hapart).mp heq)⟩

/-! ## Roots of different steps -/

/-- A staked output, an unbonded one and the change of a slashing never commit to the same root,
whichever stakes they are of, as far as what is hashed for them has different digests. -/
theorem roots_of_steps_ne [Crypto] {staked unbonded change : TapNode}
    (ha : a.stakingRoot = .ok staked) (hb : b.unbondedRoot = .ok unbonded)
    (hc : c.timelockLeaf = .ok change) (hapart : DigestsApart
      (preimages a.stakedTree ++ preimages b.unbondedTree ++ preimages c.changeTree)) :
    staked ≠ unbonded ∧ staked ≠ change ∧ unbonded ≠ change := by
  rw [stakingRoot_eq, map_eq_ok_iff] at ha
  rw [unbondedRoot_eq, map_eq_ok_iff] at hb
  rw [timelockLeaf_eq, map_eq_ok_iff] at hc
  obtain ⟨stakedTree, hstaked, rfl⟩ := ha
  obtain ⟨unbondedTree, hunbonded, rfl⟩ := hb
  obtain ⟨changeTree, hchange, rfl⟩ := hc
  rw [hstaked, hunbonded, hchange] at hapart
  have hsubset := List.append_subset.mp (List.Subset.refl
    (stakedTree.preimages ++ unbondedTree.preimages ++ changeTree.preimages))
  obtain ⟨hstakedSubset, hunbondedSubset⟩ := List.append_subset.mp hsubset.1
  -- the three trees have three scripts, two and one
  have hthree : stakedTree.scripts.length = 3 := by
    obtain ⟨stake, -, rfl⟩ := stakedTree_eq_ok_iff.mp hstaked
    rfl
  have htwo : unbondedTree.scripts.length = 2 := by
    obtain ⟨stake, -, rfl⟩ := unbondedTree_eq_ok_iff.mp hunbonded
    rfl
  have hone : changeTree.scripts.length = 1 := by
    simp only [Request.changeTree, bind_eq_ok_iff, pure_eq_ok_iff] at hchange
    obtain ⟨script, -, rfl⟩ := hchange
    rfl
  refine ⟨?_, ?_, ?_⟩
  · exact ScriptTree.root_ne_of_length_ne hapart hstakedSubset hunbondedSubset (by omega)
  · exact ScriptTree.root_ne_of_length_ne hapart hstakedSubset hsubset.2 (by omega)
  · exact ScriptTree.root_ne_of_length_ne hapart hunbondedSubset hsubset.2 (by omega)

theorem roots_of_steps_ne_loneStake :
    let a := ofStake .staking loneStake
    let b := ofStake .unbond loneStake
    let c := ofStake .slashing loneStake
    (a.stakingRoot = .ok loneStakedRoot ∧ b.unbondedRoot = .ok loneUnbondedRoot ∧
      c.timelockLeaf = .ok loneLeaves.timelock ∧ DigestsApart
        (preimages a.stakedTree ++ preimages b.unbondedTree ++ preimages c.changeTree)) ∧
      loneStakedRoot ≠ loneUnbondedRoot ∧ loneStakedRoot ≠ loneLeaves.timelock ∧
        loneUnbondedRoot ≠ loneLeaves.timelock := by
  intro a b c
  have ha := stakingRoot_of_stakeTerms (stakeTerms_loneStake .staking)
  have hb := unbondedRoot_of_stakeTerms (stakeTerms_loneStake .unbond)
  rw [hasNodes_loneStake.root_stakedTree] at ha
  rw [hasNodes_loneStake.root_unbondedTree] at hb
  have hc : c.timelockLeaf = .ok loneLeaves.timelock := by
    rw [← hasNodes_loneStake.timelock]
    rfl
  have hapart : DigestsApart
      (preimages a.stakedTree ++ preimages b.unbondedTree ++ preimages c.changeTree) := by
    rw [stakedTree_of_stakeTerms (stakeTerms_loneStake .staking),
      unbondedTree_of_stakeTerms (stakeTerms_loneStake .unbond)]
    exact digestsApart_loneStake.mono (List.append_subset.mpr ⟨List.append_subset.mpr
      ⟨loneStake.preimages_stakedTree_subset, loneStake.preimages_unbondedTree_subset⟩,
      loneStake.preimages_timelockScript_subset⟩)
  exact ⟨⟨ha, hb, hc, hapart⟩, roots_of_steps_ne ha hb hc hapart⟩

end Request

end CovenantStaking

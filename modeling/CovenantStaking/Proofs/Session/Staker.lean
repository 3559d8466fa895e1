import CovenantStaking.Proofs.Session.Pinning
import CovenantStaking.Proofs.Session.Signing
import CovenantStaking.Proofs.Session.Staking
import CovenantStaking.Proofs.Session.Unbonding

/-!
# Whose stake is approved

The staker is settled once, before anything is checked. What is then named in the terms, checked in
the output and signed under is that staker's, whichever action is approved.
-/

namespace CovenantStaking

/-! ## Scripts of a staker -/

namespace StakeTerms

variable {stake : StakeTerms} {script : Bytes}

theorem demandSignature_prefix_slashingScript :
    Tapscript.demandSignature stake.staker <+: stake.slashingScript := by
  rw [slashingScript, Tapscript.slashing, List.append_assoc]
  exact List.prefix_append _ _

theorem demandSignature_prefix_unbondingScript :
    Tapscript.demandSignature stake.staker <+: stake.unbondingScript :=
  List.prefix_append _ _

theorem demandSignature_prefix_timelockScript :
    Tapscript.demandSignature stake.staker <+: stake.timelockScript := by
  rw [timelockScript, Tapscript.lockedSpend, List.append_assoc]
  exact List.prefix_append _ _

theorem demandSignature_prefix_of_mem (h : script ∈ stake.stakedTree.scripts) :
    Tapscript.demandSignature stake.staker <+: script := by
  simp only [stakedTree, ScriptTree.scripts, List.cons_append, List.nil_append, List.mem_cons,
    List.not_mem_nil, or_false] at h
  rcases h with rfl | rfl | rfl
  · exact demandSignature_prefix_slashingScript
  · exact demandSignature_prefix_unbondingScript
  · exact demandSignature_prefix_timelockScript

end StakeTerms

/-! ## What an approval is about -/

def Signer.abscissa : Signer → XOnlyKey
  | taproot key => key
  | nativeSegwit key => key.xOnly

theorem AddressKind.abscissa_signer (kind : AddressKind) (key : PublicKey) :
    (kind.signer key).abscissa = key.xOnly := by
  cases kind <;> rfl

namespace Terms

/-- The key that the terms name: that of the staker, or that of who signs a message. -/
def staker? : Terms → Option XOnlyKey
  | staking stake | expansion stake | unbond stake _ | slashing stake _ _ _ => some stake.staker
  | withdraw => none
  | signMessage _ _ signer => some signer.abscissa

/-- The place of the output that is checked, and the scripts behind it. -/
def commitment? : Terms → Option (Nat × ScriptTree)
  | staking stake | expansion stake => some (0, stake.stakedTree)
  | unbond stake _ => some (0, stake.unbondedTree)
  | slashing stake _ _ _ => some (1, .leaf stake.timelockScript)
  | withdraw | signMessage _ _ _ => none

/-- The script that is signed under. -/
def signedScript? : Terms → Option Bytes
  | expansion stake | unbond stake _ => some stake.unbondingScript
  | slashing stake _ _ _ => some stake.slashingScript
  | staking _ | withdraw | signMessage _ _ _ => none

variable {terms : Terms} {index : Nat} {tree : ScriptTree} {script : Bytes}

theorem exists_staker_of_commitment (h : terms.commitment? = some (index, tree))
    (hscript : script ∈ tree.scripts) :
    ∃ key ∈ terms.staker?, Tapscript.demandSignature key <+: script := by
  cases terms with
  | staking stake | expansion stake =>
      cases h
      exact ⟨_, rfl, StakeTerms.demandSignature_prefix_of_mem hscript⟩
  | unbond stake _ =>
      cases h
      refine ⟨_, rfl, StakeTerms.demandSignature_prefix_of_mem ?_⟩
      simp only [StakeTerms.unbondedTree, ScriptTree.scripts, List.mem_append] at hscript
      simp only [StakeTerms.stakedTree, ScriptTree.scripts, List.mem_append]
      exact hscript.imp_right .inr
  | slashing stake _ _ _ =>
      cases h
      cases List.mem_singleton.mp hscript
      exact ⟨_, rfl, StakeTerms.demandSignature_prefix_timelockScript⟩
  | withdraw | signMessage _ _ _ => cases h

theorem exists_staker_of_signedScript (h : terms.signedScript? = some script) :
    ∃ key ∈ terms.staker?, Tapscript.demandSignature key <+: script := by
  cases terms with
  | expansion stake | unbond stake _ =>
      cases h
      exact ⟨_, rfl, StakeTerms.demandSignature_prefix_unbondingScript⟩
  | slashing stake _ _ _ =>
      cases h
      exact ⟨_, rfl, StakeTerms.demandSignature_prefix_slashingScript⟩
  | staking _ | withdraw | signMessage _ _ _ => cases h

end Terms

/-- The staker is the one whom an approval names, and every script behind the output that was
checked, or under which to sign, demands that staker's signature first. -/
structure Approval.StakedBy [Crypto] (approval : Approval) (tx : Transaction)
    (staker : Option XOnlyKey) : Prop where
  named : ∀ key ∈ approval.terms.staker?, staker = some key
  output : ∀ index tree, approval.terms.commitment? = some (index, tree) →
    tx.CommitsTo index tree.root ∧
      ∀ script ∈ tree.scripts, ∃ key ∈ staker, Tapscript.demandSignature key <+: script
  leaf : approval.leaf = approval.terms.signedScript?.map Tapscript.leaf
  signed : ∀ script ∈ approval.terms.signedScript?,
    ∃ key ∈ staker, Tapscript.demandSignature key <+: script

theorem Approval.stakedBy_of_named [Crypto] {approval : Approval} {tx : Transaction}
    {staker : Option XOnlyKey} (hnamed : ∀ key ∈ approval.terms.staker?, staker = some key)
    (houtput : ∀ index tree, approval.terms.commitment? = some (index, tree) →
      tx.CommitsTo index tree.root)
    (hleaf : approval.leaf = approval.terms.signedScript?.map Tapscript.leaf) :
    approval.StakedBy tx staker where
  named := hnamed
  output := by
    intro index tree h
    refine ⟨houtput index tree h, fun script hscript => ?_⟩
    obtain ⟨key, hkey, hprefix⟩ := Terms.exists_staker_of_commitment h hscript
    exact ⟨key, hnamed key hkey, hprefix⟩
  leaf := hleaf
  signed := by
    intro script h
    obtain ⟨key, hkey, hprefix⟩ := Terms.exists_staker_of_signedScript h
    exact ⟨key, hnamed key hkey, hprefix⟩

theorem Request.terms_of_withdraw {r : Request} (haction : r.action = some .withdraw)
    (derived : Option PublicKey) : r.terms derived = .ok .withdraw := by
  simp only [terms, requireAction, haction, present, bind, Except.bind]
  rfl

namespace Session

variable {s next : Session} {tx : Transaction} {host : HostKeys} {approval : Approval}

theorem stakedBy_of_commitsTo [Crypto] {terms : Terms} {stake : StakeTerms} {fee : UInt64}
    {leaf : Option TapNode} {index : Nat} {tree : ScriptTree}
    (hnamed : terms.staker? = some stake.staker)
    (hcommitment : terms.commitment? = some (index, tree))
    (houtput : tx.CommitsTo index tree.root)
    (hleaf : leaf = terms.signedScript?.map Tapscript.leaf) :
    (s.approve terms fee leaf).StakedBy tx (some stake.staker) := by
  apply Approval.stakedBy_of_named
  · intro key hkey
    exact hnamed.symm.trans hkey
  · intro index' tree' h
    cases hcommitment.symm.trans h
    exact houtput
  · exact hleaf

theorem Passes.stakedBy [Crypto] {request : Request} {terms : Terms} {fee : UInt64}
    {leaf : Option TapNode} (h : s.Passes tx host request terms fee leaf) :
    (s.approve terms fee leaf).StakedBy tx request.stakerKey := by
  obtain ⟨derived, hderive, hterms⟩ := h.derivesTerms
  have hframe := Request.deriveStaker_frame hderive
  obtain ⟨action, haction⟩ : ∃ action, request.action = some action :=
    ⟨_, Request.action_of_terms hterms⟩
  -- the rules are stated for the request as it was loaded, which has the same action
  have hsame : s.request.action = some action := by
    rw [← haction, hframe]
  cases action with
  | staking | expansion =>
      obtain ⟨stake, hlock, rfl, rfl, rfl⟩ := (passes_locking_iff hsame rfl).mp h
      exact stakedBy_of_commitsTo rfl rfl hlock.output rfl
  | unbond =>
      obtain ⟨stake, hunbond, rfl, rfl, rfl⟩ := (passes_unbond_iff hsame).mp h
      exact stakedBy_of_commitsTo rfl rfl hunbond.output rfl
  | slashing | slashingUnbonding =>
      obtain ⟨stake, _, _, hslash, rfl, rfl, rfl⟩ := (passes_slashing_iff hsame rfl).mp h
      exact stakedBy_of_commitsTo rfl rfl hslash.change rfl
  | withdraw =>
      rw [Request.terms_of_withdraw haction] at hterms
      cases hterms
      have hleaf := pure_eq_ok_iff.mp h.rules
      subst hleaf
      exact Approval.stakedBy_of_named nofun nofun rfl
  | signMessage =>
      obtain ⟨_, kind, key, _, -, rfl, rfl, rfl⟩ := (passes_signMessage_iff hsame).mp h
      refine Approval.stakedBy_of_named ?_ nofun rfl
      rintro _ ⟨⟩
      exact congrArg some (kind.abscissa_signer key).symm

theorem verify_congr_host [Crypto] (hpath : s.request.derivationPath = none) (tx : Transaction)
    (host host' : HostKeys) : s.verify tx host = s.verify tx host' := by
  simp only [verify_eq, checks, Request.deriveStaker, hpath]

/-- What a loaded session approves is all about one staker. Where the request has a path, this is
the key that the host derives there, which no key that was sent may differ from. Without a path it
is the key that was sent, and the host has no influence on what is approved. -/
theorem stakedBy_of_verify [Crypto] (policy : Policy) (calls : List Call)
    (h : ((start policy).run calls).verify tx host = (.ok approval, next)) :
    ∃ before blob sent, calls = before ++ [.load blob] ∧ Blob.decode blob = .ok sent ∧
      (∀ path ∈ sent.derivationPath, ∃ key, host path = .ok key ∧ key.validate = .ok () ∧
        (∀ named ∈ sent.stakerKey, named = key.xOnly) ∧
        next.request = sent.withStaker key.xOnly ∧ approval.StakedBy tx (some key.xOnly)) ∧
      (sent.derivationPath = none →
        next.request = sent ∧ approval.StakedBy tx sent.stakerKey ∧
        ∀ host', ((start policy).run calls).verify tx host' = (.ok approval, next)) := by
  obtain ⟨hstage, request, terms, fee, leaf, hpasses, rfl, rfl⟩ := verify_eq_ok_iff_passes.mp h
  obtain ⟨before, blob, hcalls, hdecode⟩ := (origin_run policy calls).of_parsed hstage
  obtain ⟨derived, hderive, -⟩ := hpasses.derivesTerms
  refine ⟨before, blob, _, hcalls, hdecode, ?_, ?_⟩
  · intro path hpath
    rcases Request.deriveStaker_eq_ok_iff.mp hderive with ⟨hnone, -⟩ | ⟨path', key, hkey, -, rfl⟩
    · cases hnone.symm.trans hpath
    · cases hkey.sentPath.symm.trans hpath
      exact ⟨key, hkey.derived, hkey.valid, hkey.sentKey, rfl, hpasses.stakedBy⟩
  · intro hpath
    rcases Request.deriveStaker_eq_ok_iff.mp hderive with ⟨-, -, rfl⟩ | ⟨path', key, hkey, -⟩
    · exact ⟨rfl, hpasses.stakedBy, fun host' => (verify_congr_host hpath tx host' host).trans h⟩
    · cases hkey.sentPath.symm.trans hpath

/-! ## A loss with the staker derived -/

/-- The loss of a stake of the host's own: the staker is not sent but derived. -/
def ownLossRequest : Request :=
  { lossRequest ⟨.zero 32⟩ with stakerKey := none, derivationPath := some (.taproot 0 0 0 0) }

def ownLossStake : StakeTerms :=
  { lossStake ⟨.zero 32⟩ with staker := greetingKey.xOnly }

def ownLossBlob : Bytes :=
  Blob.write [.single (.action .slashing), .finalityProviders [⟨.zero 32⟩],
    .covenant [⟨.zero 32⟩] 1, .single (.derivationPath (.taproot 0 0 0 0)),
    .single (.timelock 144), .single (.slashingFeeLimit 1000), .single (.burnAddress [0x6a])]

def ownLossChangeKey : XOnlyKey :=
  ⟨.ofNat 32 0x1d5d6f587502c9c5200963c3713042c6ec2a8ce60d587767fa4719aaa8008c0d⟩

def ownLossTransaction : Transaction :=
  { lossTransaction with
    outputs := [⟨[0x6a], 0⟩, ⟨0x51 :: 0x20 :: ownLossChangeKey.bytes, 49000⟩] }

theorem ownLossChangeKey_eq :
    XOnlyKey.unspendable.tweak (Tapscript.leaf ownLossStake.timelockScript) =
      .ok (ownLossChangeKey, .even) :=
  toOption_eq_some_iff.mp (by decide +kernel)

theorem decode_ownLossBlob : Blob.decode ownLossBlob = .ok ownLossRequest :=
  toOption_eq_some_iff.mp (by decide +kernel)

theorem maySlash_ownLoss :
    MaySlash ⟨.standard, ownLossRequest, .free, .parsed⟩ ownLossTransaction greetingHost
      ownLossStake 1000 [0x6a] 1000 where
  staker := ⟨greetingKey, rfl, toOption_eq_some_iff.mp (by decide +kernel), nofun, rfl⟩
  describes := by constructor <;> simp [ownLossRequest, ownLossStake, lossRequest, lossStake]
  feeLimit := rfl
  burn := rfl
  inputs := rfl
  outputs := Nat.le_refl 2
  balances := by constructor <;> decide
  limit_le := UInt64.le_refl 1000
  bounds := by
    rintro _ ⟨⟩
    decide
  keySets := nofun
  change := ⟨ownLossChangeKey, .even, ownLossChangeKey_eq, rfl⟩
  burns := ⟨rfl, fun _ => rfl⟩

theorem stakedBy_of_loss :
    (∃ approval next,
      ((start .standard).run [.load ownLossBlob]).verify ownLossTransaction greetingHost =
        (.ok approval, next) ∧
      next.request.stakerKey = some greetingKey.xOnly ∧
      approval.StakedBy ownLossTransaction (some greetingKey.xOnly)) ∧
    ∃ approval next, approval.StakedBy lossTransaction (some ⟨.zero 32⟩) ∧
      ∀ host, ((start .standard).run [.load (lossBlob ⟨.zero 32⟩)]).verify lossTransaction host =
        (.ok approval, next) := by
  constructor
  · have hverify := verify_of_maySlash rfl rfl rfl maySlash_ownLoss
    rw [← run_load decode_ownLossBlob] at hverify
    obtain ⟨before, blob, sent, hcalls, hdecode, hpath, -⟩ := stakedBy_of_verify _ _ hverify
    rcases List.singleton_eq_append_iff.mp hcalls with ⟨rfl, ⟨⟩⟩ | ⟨-, ⟨⟩⟩
    cases hdecode.symm.trans decode_ownLossBlob
    obtain ⟨_, ⟨⟩, -, -, hrequest, hstaked⟩ := hpath _ rfl
    exact ⟨_, _, hverify, congrArg Request.stakerKey hrequest, hstaked⟩
  · obtain ⟨approval, -, hverify⟩ := @verify_loss ⟨.zero 32⟩ .free nofun
    rw [← run_load_loss] at hverify
    obtain ⟨before, blob, sent, hcalls, hdecode, -, hsent⟩ := stakedBy_of_verify _ _ hverify
    rcases List.singleton_eq_append_iff.mp hcalls with ⟨rfl, ⟨⟩⟩ | ⟨-, ⟨⟩⟩
    cases hdecode.symm.trans (decode_lossBlob _ (by simp))
    obtain ⟨-, hstaked, hverify⟩ := hsent rfl
    exact ⟨approval, _, hstaked, hverify⟩

end Session

end CovenantStaking

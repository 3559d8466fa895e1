import CovenantStaking.Proofs.Session.Approval

/-!
# Where a failure about key sets comes from

Of all the steps of a verification only the pin fails because key sets differ, unless the host or
the backend answers so of its own.
-/

namespace CovenantStaking

variable {part : KeySetPart}

/-! ## The steps of a request -/

namespace Request

variable {r : Request} {tx : Transaction}

@[simp] theorem presentKeys_ne_keySet {keys : Option (List XOnlyKey)} {field : Field} :
    presentKeys keys field ≠ .error (.keySet part) := by
  simp [presentKeys]

@[simp] theorem committee_ne_keySet : r.committee ≠ .error (.keySet part) := by
  simp [committee, requireCovenantKeys, requireQuorum]

@[simp] theorem ensureLockable_ne_keySet {blocks : UInt64} :
    Tapscript.ensureLockable blocks ≠ .error (.keySet part) := by
  simp [Tapscript.ensureLockable]

@[simp] theorem stakeTerms_ne_keySet : r.stakeTerms ≠ .error (.keySet part) := by
  simp [stakeTerms_eq_committee, requireTimelock, requireStakerKey, requireProviders]

variable [Crypto]

@[simp] theorem slashingLeaf_ne_keySet : r.slashingLeaf ≠ .error (.keySet part) := by
  simp [slashingLeaf, slashingScript, requireStakerKey, requireProviders]

@[simp] theorem unbondingLeaf_ne_keySet : r.unbondingLeaf ≠ .error (.keySet part) := by
  simp [unbondingLeaf, unbondingScript, requireStakerKey]

@[simp] theorem timelockLeaf_ne_keySet : r.timelockLeaf ≠ .error (.keySet part) := by
  simp [timelockLeaf, timelockScript, requireStakerKey, requireTimelock, Tapscript.timelock]

@[simp] theorem leaves_ne_keySet : r.leaves ≠ .error (.keySet part) := by
  simp [leaves]

end Request

/-! ## The steps of a transaction -/

/-- The backend in software does not answer so. -/
theorem TapNode.outputKey_ne_keySet {root : TapNode} : root.outputKey ≠ .error (.keySet part) := by
  have htweak : XOnlyKey.unspendable.tweak root ≠ .error (.keySet part) := by
    unfold XOnlyKey.tweak
    split
    · simp
    · dsimp only
      split
      · simp
      · split <;> simp
  simp [outputKey, Crypto.tweak, htweak]

namespace Transaction

variable {tx : Transaction}

@[simp] theorem output_ne_keySet {index : Nat} : tx.output index ≠ .error (.keySet part) := by
  unfold Transaction.output
  split <;> simp

@[simp] theorem input_ne_keySet {index : Nat} : tx.input index ≠ .error (.keySet part) := by
  unfold Transaction.input
  split <;> simp

@[simp] theorem fee_ne_keySet : tx.fee ≠ .error (.keySet part) :=
  fun h => nomatch fee_eq_error_iff.mp h

@[simp] theorem checkShape_ne_keySet {action : Action} :
    tx.checkShape action ≠ .error (.keySet part) := by
  simp [checkShape]

theorem checkCommitment_ne_keySet [Crypto] {index : Nat} {root : TapNode} {role : String}
    (hkey : root.outputKey ≠ .error (.keySet part)) :
    tx.checkCommitment index root role ≠ .error (.keySet part) := by
  simp [checkCommitment, checkOutputKey, hkey]

end Transaction

/-! ## The rules -/

@[simp] theorem Policy.checkLimit_ne_keySet {policy : Policy} {limit : FeeLimit} {sats : UInt64} :
    policy.checkLimit limit sats ≠ .error (.keySet part) := by
  unfold checkLimit
  split <;> simp

@[simp] theorem toSpendId_ne_keySet [Crypto] {message : Bytes} {signer : Signer} :
    toSpendId message signer ≠ .error (.keySet part) := by
  unfold toSpendId Message.digest Message.text
  cases Bech32.encode? Message.readablePart message with
  | none => simp
  | some text => simp

namespace Request

variable {r : Request} {tx : Transaction} {policy : Policy}

theorem checkTransaction_ne_keySet [Crypto] {terms : Terms}
    (hkey : ∀ root : TapNode, root.outputKey ≠ .error (.keySet part)) :
    r.checkTransaction policy terms tx ≠ .error (.keySet part) := by
  have hcommit : ∀ index root role, tx.checkCommitment index root role ≠ .error (.keySet part) :=
    fun _ root _ => Transaction.checkCommitment_ne_keySet (hkey root)
  cases terms with
  | staking _ => simp [checkTransaction, checkStaking, stakingRoot, hcommit]
  | expansion _ => simp [checkTransaction, checkExpansion, hcommit]
  | unbond _ _ => simp [checkTransaction, checkUnbond, unbondedRoot, hcommit]
  | slashing _ _ _ _ => simp [checkTransaction, checkSlashing, checkBurn, hcommit]
  | withdraw => simp [checkTransaction]
  | signMessage _ _ _ => simp [checkTransaction, checkMessage]

end Request

/-! ## The terms -/

@[simp] theorem KeyPath.addressKind_ne_keySet {path : KeyPath} :
    path.addressKind ≠ .error (.keySet part) := by
  unfold addressKind
  split
  · simp
  · split
    · simp
    · split <;> simp

@[simp] theorem Signer.choose_ne_keySet {kind : AddressKind} {named : Option MessageKey}
    {derived : Option PublicKey} : choose kind named derived ≠ .error (.keySet part) := by
  have hagree : checkAgreement named derived ≠ .error (.keySet part) := by
    unfold checkAgreement
    split <;> simp
  have htaproot : taproot? named derived ≠ .error (.keySet part) := by
    unfold taproot?
    split <;> simp
  have hsegwit : nativeSegwit? named derived ≠ .error (.keySet part) := by
    unfold nativeSegwit?
    split <;> simp
  cases kind with
  | taproot => simp [choose, hagree, htaproot]
  | nativeSegwit => simp [choose, hagree, hsegwit]

namespace Request

variable {r : Request}

theorem terms_ne_keySet {derived : Option PublicKey} :
    r.terms derived ≠ .error (.keySet part) := by
  have haction : r.requireAction ≠ .error (.keySet part) := by simp [requireAction]
  simp only [terms, ne_eq, bind_eq_error_iff, haction, false_or, not_exists, not_and]
  intro action _
  cases action with
  | staking | expansion => simp
  | unbond => simp [unbondTerms]
  | slashing | slashingUnbonding => simp [slashingTerms]
  | withdraw => simp
  | signMessage => simp [messageTerms]

/-- Deriving the staker fails for key sets only if the host does, at the path that was sent. -/
theorem host_of_deriveStaker_eq_keySet {host : HostKeys}
    (h : r.deriveStaker host = .error (.keySet part)) :
    ∃ path, r.derivationPath = some path ∧ host path = .error (.keySet part) := by
  have hsent : ∀ path derived, r.checkSentStaker path derived ≠ .error (.keySet part) := by
    intro path derived
    unfold checkSentStaker
    split <;> simp
  unfold deriveStaker at h
  split at h
  · cases h
  · rename_i path hpath
    simp only [PublicKey.validate, bind_eq_error_iff, ensure_eq_error_iff, reduceCtorEq, hsent,
      pure_ne_error, and_false, exists_false, or_self, or_false] at h
    exact ⟨path, hpath, h⟩

end Request

/-! ## Sessions -/

/-- A pin fails only for key sets that are not the pinned ones. -/
theorem KeyPin.held_of_accept_eq_error {pin : KeyPin} {r : Request} {cause : Failure}
    (h : pin.accept r = .error cause) : ∃ sets, pin.held = some sets ∧ sets ≠ r.keySets := by
  unfold accept at h
  split at h
  · cases h
  · rename_i sets hheld
    refine ⟨sets, hheld, fun heq => ?_⟩
    rw [KeySets.difference?_eq_none_iff.mpr heq] at h
    cases h

namespace Session

variable [Crypto] {s : Session} {tx : Transaction} {host : HostKeys}

/-- Where the checks fail for key sets, the backend or the host did so, or other ones than the
request's are pinned. -/
theorem checks_eq_keySet (h : s.checks tx host = .error (.keySet part)) :
    (∃ root : TapNode, root.outputKey = .error (.keySet part)) ∨
      (∃ path, s.request.derivationPath = some path ∧ host path = .error (.keySet part)) ∨
      ∃ sets, s.pin.held = some sets ∧ sets ≠ s.request.keySets := by
  by_cases hkey : ∃ root : TapNode, root.outputKey = .error (.keySet part)
  · exact .inl hkey
  right
  have hrules : ∀ (r : Request) terms,
      r.checkTransaction s.policy terms tx ≠ .error (.keySet part) :=
    fun r terms => Request.checkTransaction_ne_keySet (not_exists.mp hkey)
  simp only [checks, bind_eq_error_iff, Prod.exists, Request.terms_ne_keySet,
    Transaction.checkShape_ne_keySet, Transaction.fee_ne_keySet, hrules, pure_ne_error, and_false,
    exists_false, or_false, false_or] at h
  rcases h with hhost | ⟨derived, request, hderive, _, _, _, _, _, _, haccept⟩
  · exact .inl (Request.host_of_deriveStaker_eq_keySet hhost)
  · obtain ⟨sets, hheld, hne⟩ := KeyPin.held_of_accept_eq_error haccept
    rw [Request.deriveStaker_frame hderive] at hne
    exact .inr ⟨sets, hheld, hne⟩

theorem verify_eq_keySet (h : (s.verify tx host).1 = .error (.keySet part)) :
    (∃ root : TapNode, root.outputKey = .error (.keySet part)) ∨
      (∃ path, s.request.derivationPath = some path ∧ host path = .error (.keySet part)) ∨
      ∃ sets, s.pin.held = some sets ∧ sets ≠ s.request.keySets := by
  rw [verify_eq] at h
  split at h
  · split at h
    · cases h
    · rename_i cause hchecks
      cases h
      exact checks_eq_keySet hchecks
  · cases h
  · cases h

/-- What a host answers instead of a key is handed on, before anything else of the request is looked
at. -/
theorem verify_of_host_error {path : KeyPath} {cause : Failure} (hstage : s.stage = .parsed)
    (hpath : s.request.derivationPath = some path) (hhost : host path = .error cause) :
    (s.verify tx host).1 = .error cause := by
  have hderive : s.request.deriveStaker host = .error cause := by
    simp only [Request.deriveStaker, hpath, hhost]
    rfl
  have hchecks : s.checks tx host = .error cause := by
    simp only [checks, hderive]
    rfl
  simp only [verify_eq, hstage, hchecks]

end Session

end CovenantStaking

import CovenantStaking.Proofs.Session.Signing

/-!
# Runs of calls

What a session holds after any run of calls: the request of the blob that was loaded last, or
nothing. Every approval takes a load of its own, just before it.
-/

namespace CovenantStaking.Session

theorem LoadedBy.exists_load [Crypto] {policy : Policy} {calls : List Call}
    (h : ((start policy).run calls).LoadedBy calls) : ∃ before blob,
      calls = before ++ [.load blob] ∧ (((start policy).run before).load blob).1 = .ok () := by
  obtain ⟨before, blob, hcalls, hdecode⟩ := h
  refine ⟨before, blob, hcalls, ?_⟩
  simp only [load_eq, hdecode]

/-- After any run a session that is not loaded, or was rejected, holds nothing. A loaded one holds
what the last blob spells, and an approved one the same with its staker settled. A verification
succeeds only right after a load that did, so that no other approval, end or rejection lies between
the two. -/
theorem holds_of_stage [Crypto] (policy : Policy) (calls : List Call) :
    let s := (start policy).run calls
    (s.stage = .unparsed ∨ s.stage = .rejected → s.request = .empty ∧ s.pin = .free) ∧
    (s.stage = .parsed → s.LoadedBy calls) ∧
    (s.stage = .verified → s.ApprovedBy policy calls) ∧
    (∀ tx host approval, (s.verify tx host).1 = .ok approval → ∃ before blob,
      calls = before ++ [.load blob] ∧ (((start policy).run before).load blob).1 = .ok ()) := by
  intro s
  have horigin := origin_run policy calls
  refine ⟨horigin.of_blank, horigin.of_parsed, horigin.of_verified, ?_⟩
  intro tx host approval happroved
  obtain ⟨hstage, -⟩ := verify_eq_ok_iff.mp (Prod.ext happroved rfl)
  exact (horigin.of_parsed hstage).exists_load

/-- A greeting is asked for, approved, tried once more and dropped. -/
theorem holds_of_stage_greeting :
    let s := start .standard
    let ask := Call.load (greetingBlob .taproot)
    let verify := Call.verify (greetingSpend .taproot) greetingHost
    ((s.run [ask]).stage = .parsed ∧ (s.run [ask]).LoadedBy [ask]) ∧
    ((∃ approval, ((s.run [ask]).verify (greetingSpend .taproot) greetingHost).1 = .ok approval) ∧
      ∃ before blob, [ask] = before ++ [.load blob] ∧ ((s.run before).load blob).1 = .ok ()) ∧
    ((s.run [ask, verify, verify]).stage = .verified ∧
      (s.run [ask, verify, verify]).ApprovedBy .standard [ask, verify, verify]) ∧
    ((s.run [ask, verify, verify, .load [0]]).stage = .rejected ∧
      (s.run [ask, verify, verify, .load [0]]).request = .empty ∧
      (s.run [ask, verify, verify, .load [0]]).pin = .free) := by
  intro s ask verify
  have hask : (s.step ask).2 = greetingAsked .taproot := by
    rw [← run_greetingBlob, run_cons, run_nil]
  have hverify : (greetingAsked .taproot).step verify =
      (.verified (.ok (signed greeting .taproot greetingKey 0)), greetingApproved .taproot) := by
    rw [step_verify, verify_greeting]
  have hagain : ((greetingApproved .taproot).step verify).2 = greetingApproved .taproot := by
    rw [step_verify, verify_of_verified rfl]
  have hparsed : (s.run [ask]).stage = .parsed := by
    rw [run_cons, run_nil, hask]
    rfl
  have hanswer : ((s.run [ask]).verify (greetingSpend .taproot) greetingHost).1 =
      .ok (signed greeting .taproot greetingKey 0) := by
    rw [run_cons, run_nil, hask, verify_greeting]
  have hverified : (s.run [ask, verify, verify]).stage = .verified := by
    rw [run_cons, hask, run_cons, hverify, run_cons, hagain, run_nil]
    rfl
  have hdropped : (s.run [ask, verify, verify, .load [0]]).stage = .rejected := by
    rw [run_cons, hask, run_cons, hverify, run_cons, hagain]
    decide +kernel
  exact ⟨⟨hparsed, (holds_of_stage .standard [ask]).2.1 hparsed⟩,
    ⟨⟨_, hanswer⟩, (holds_of_stage .standard [ask]).2.2.2 _ _ _ hanswer⟩,
    ⟨hverified, (holds_of_stage .standard _).2.2.1 hverified⟩,
    ⟨hdropped, (holds_of_stage .standard _).1 (.inr hdropped)⟩⟩

end CovenantStaking.Session

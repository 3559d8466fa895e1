import CovenantStaking.Proofs.Session.Pinning

/-!
# Starting over

A failure leaves nothing behind, and neither does the end of a session: what follows from the next
load on goes as in a new session.
-/

namespace CovenantStaking

/-- What a call failed with, if it failed. -/
def Answer.failure? : Answer → Option Failure
  | .loaded (.error cause) | .verified (.error cause) => some cause
  | .loaded (.ok _) | .verified (.ok _) | .finished => none

namespace Session

variable {s : Session} {call : Call}

/-! ## One call -/

/-- A failed call empties the session, unless it tries to have an approved one verified again. -/
theorem step_of_failure [Crypto] {cause : Failure} (h : (s.step call).1.failure? = some cause) :
    (s.stage = .verified ∧ (∃ tx host, call = .verify tx host) ∧ (s.step call).2 = s) ∨
      (s.step call).2 = s.cleared .rejected := by
  have hyields := s.yields_step call
  generalize s.step call = outcome at h hyields ⊢
  cases hyields with
  | loaded | approved | finished => cases h
  | unreadable | refused | untimely => exact .inr rfl
  | repeated hstage => exact .inl ⟨hstage, ⟨_, _, rfl⟩, rfl⟩

theorem policy_step [Crypto] (s : Session) (call : Call) : (s.step call).2.policy = s.policy := by
  have hyields := s.yields_step call
  generalize s.step call = outcome at hyields ⊢
  cases hyields <;> rfl

/-- A load does not look at how an emptied session came to be empty. -/
theorem step_load_cleared [Crypto] (s : Session) (a b : Stage) (blob : Bytes) :
    (s.cleared a).step (.load blob) = (s.cleared b).step (.load blob) := by
  simp only [step, load_eq, cleared]

/-! ## Runs -/

theorem policy_run [Crypto] (s : Session) (calls : List Call) :
    (s.run calls).policy = s.policy := by
  induction calls generalizing s with
  | nil => rfl
  | cons call calls ih => rw [run_cons, ih, policy_step]

theorem trace_load_cleared [Crypto] (s : Session) (a b : Stage) (blob : Bytes) (later : List Call) :
    (s.cleared a).trace (.load blob :: later) = (s.cleared b).trace (.load blob :: later) := by
  -- the load answers alike and leaves the same session, so no induction on what follows is needed
  simp only [trace, step_load_cleared s a b]

theorem cleared_unparsed (s : Session) : s.cleared .unparsed = start s.policy := rfl

theorem Wipes.trace_load [Crypto] (h : s.Wipes call) (blob : Bytes) (later : List Call) :
    (s.step call).2.trace (.load blob :: later) =
      (start s.policy).trace (.load blob :: later) := by
  obtain ⟨stage, hstep⟩ := h.step_eq
  rw [hstep, trace_load_cleared s stage .unparsed, cleared_unparsed]

/-- After any run a failed call leaves nothing but the policy, unless it was to verify an approved
session again: this leaves everything as it is. And whatever is rejected or finished goes on from a
load with the answers and the sessions of a new one. -/
theorem failure_clears [Crypto] (policy : Policy) (before : List Call) (call : Call) :
    let s := (start policy).run before
    (∀ cause, (s.step call).1.failure? = some cause →
      (s.stage = .verified ∧ (∃ tx host, call = .verify tx host) ∧ (s.step call).2 = s) ∨
        (s.step call).2 = ⟨policy, .empty, .free, .rejected⟩) ∧
    (s.Wipes call → ∀ blob later, (s.step call).2.trace (.load blob :: later) =
      (start policy).trace (.load blob :: later)) := by
  intro s
  have hpolicy : s.policy = policy := policy_run (start policy) before
  constructor
  · intro cause hfailure
    rw [← hpolicy]
    exact step_of_failure hfailure
  · intro hwipes blob later
    rw [← hpolicy]
    exact hwipes.trace_load blob later

/-- A loss that is turned away for its key sets leaves none of the pinned ones behind; one that is
asked for twice leaves the first approval standing. -/
theorem failure_clears_of_loss :
    let s := (start .standard).run (lossCalls ⟨.ofNat 32 1⟩)
    let approved := (start .standard).run
      [.load (lossBlob ⟨.zero 32⟩), .verify lossTransaction .unavailable]
    let verify := Call.verify lossTransaction .unavailable
    ((s.step verify).1.failure? = some (.keySet .covenantKeys) ∧
      (s.step verify).2 = ⟨.standard, .empty, .free, .rejected⟩) ∧
    (s.Wipes verify ∧ (s.step verify).2.trace [.load (lossBlob ⟨.ofNat 32 1⟩), verify] =
      (start .standard).trace [.load (lossBlob ⟨.ofNat 32 1⟩), verify]) ∧
    ((approved.step verify).1.failure? = some (.stage .alreadyVerified) ∧
      approved.stage = .verified ∧ (approved.step verify).2 = approved) := by
  intro s approved verify
  have hs : s = lossAsked ⟨.ofNat 32 1⟩ ⟨some (lossRequest ⟨.zero 32⟩).keySets⟩ :=
    run_lossCalls (decode_lossBlob _ (by simp))
  have hparsed : s.stage = .parsed := by
    rw [hs]
    rfl
  have hrefused : (s.step verify).1.failure? = some (.keySet .covenantKeys) := by
    rw [hs]
    rfl
  have hcleared : (s.step verify).2 = ⟨.standard, .empty, .free, .rejected⟩ := by
    rcases (failure_clears .standard _ verify).1 _ hrefused with ⟨hverified, -⟩ | hcleared
    · cases hparsed.symm.trans hverified
    · exact hcleared
  have hwipes : s.Wipes verify := .inr (congrArg Session.stage hcleared)
  have hverified : approved.stage = .verified := by
    obtain ⟨approval, _, hstep⟩ := step_verify_loss
    have happroved : approved =
        (((start .standard).run [.load (lossBlob ⟨.zero 32⟩)]).step verify).2 :=
      run_concat _ [_] _
    rw [happroved, run_load_loss, hstep]
  have hagain : approved.step verify =
      (.verified (.error (.stage .alreadyVerified)), approved) := by
    rw [step_verify, verify_of_verified hverified]
  have hrepeated : (approved.step verify).1.failure? = some (.stage .alreadyVerified) := by
    rw [hagain]
    rfl
  have hstays : (approved.step verify).2 = approved := by
    rcases (failure_clears .standard _ verify).1 _ hrepeated with ⟨-, -, hsame⟩ | hrejected
    · exact hsame
    · rw [hagain] at hrejected
      cases hverified.symm.trans (congrArg Session.stage hrejected)
  exact ⟨⟨hrefused, hcleared⟩,
    ⟨hwipes, (failure_clears .standard _ verify).2 hwipes _ [verify]⟩,
    hrepeated, hverified, hstays⟩

end Session

end CovenantStaking

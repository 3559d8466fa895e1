import CovenantStaking.Proofs.Session.Checks

/-!
# What a call does to a session

Everything that can come of a call, and statements about every call of a run.
-/

namespace CovenantStaking.Session

/-! ## One call -/

/-- What is loaded is what the blob says, whatever the session held before. -/
theorem load_eq (s : Session) (blob : Bytes) :
    s.load blob =
      match Blob.decode blob with
      | .ok request => (.ok (), { s with request, stage := .parsed })
      | .error cause => (.error cause, s.cleared .rejected) := by
  unfold load Request.load
  cases Blob.decode blob with
  | ok request => rfl
  | error cause => rfl

variable [Crypto]

/-- What a call can be answered, and the session that it then leaves. -/
inductive Yields (s : Session) : Call → Answer × Session → Prop
  | loaded {blob request} (hdecode : Blob.decode blob = .ok request) :
      Yields s (.load blob) (.loaded (.ok ()), { s with request, stage := .parsed })
  | unreadable {blob cause} (hdecode : Blob.decode blob = .error cause) :
      Yields s (.load blob) (.loaded (.error cause), s.cleared .rejected)
  | approved {tx host approval request pin} (hstage : s.stage = .parsed)
      (hchecks : s.checks tx host = .ok (approval, request, pin)) :
      Yields s (.verify tx host)
        (.verified (.ok approval), { s with request, pin, stage := .verified })
  | refused {tx host cause} (hstage : s.stage = .parsed)
      (hchecks : s.checks tx host = .error cause) :
      Yields s (.verify tx host) (.verified (.error cause), s.cleared .rejected)
  | repeated {tx host} (hstage : s.stage = .verified) :
      Yields s (.verify tx host) (.verified (.error (.stage .alreadyVerified)), s)
  | untimely {tx host stage} (hstage : s.stage = stage) (hparsed : stage ≠ .parsed)
      (hverified : stage ≠ .verified) :
      Yields s (.verify tx host)
        (.verified (.error (.stage (.verifyIn stage))), s.cleared .rejected)
  | finished : Yields s .finish (.finished, s.finish)

/-- What a verification answers and leaves. Rewriting by this keeps a verification of a given
session from being computed. -/
theorem step_verify (s : Session) (tx : Transaction) (host : HostKeys) :
    s.step (.verify tx host) = (.verified (s.verify tx host).1, (s.verify tx host).2) := rfl

theorem verify_of_verified {s : Session} (h : s.stage = .verified) (tx : Transaction)
    (host : HostKeys) : s.verify tx host = (.error (.stage .alreadyVerified), s) := by
  simp only [verify_eq, h]

theorem yields_step (s : Session) (call : Call) : s.Yields call (s.step call) := by
  cases call with
  | load blob =>
      cases hdecode : Blob.decode blob with
      | ok request =>
          simp only [step, load_eq, hdecode]
          exact .loaded hdecode
      | error cause =>
          simp only [step, load_eq, hdecode]
          exact .unreadable hdecode
  | verify tx host =>
      cases hstage : s.stage with
      | parsed =>
          cases hchecks : s.checks tx host with
          | ok outcome =>
              simp only [step, verify_eq, hstage, hchecks]
              exact .approved hstage hchecks
          | error cause =>
              simp only [step, verify_eq, hstage, hchecks]
              exact .refused hstage hchecks
      | verified =>
          simp only [step, verify_of_verified hstage]
          exact .repeated hstage
      | unparsed | rejected =>
          simp only [step, verify_eq, hstage]
          exact .untimely hstage nofun nofun
  | finish => exact .finished

/-! ## Many calls -/

theorem run_concat (s : Session) (calls : List Call) (call : Call) :
    s.run (calls ++ [call]) = ((s.run calls).step call).2 :=
  run_append s calls [call]

theorem run_load {policy : Policy} {blob : Bytes} {request : Request}
    (h : Blob.decode blob = .ok request) :
    (start policy).run [.load blob] = ⟨policy, request, .free, .parsed⟩ := by
  simp only [run_cons, run_nil, step, load_eq, h]
  rfl

/-- Each call of a run is made in a session of which, with the call, `P` holds. -/
def Along (P : Session → Call → Prop) : Session → List Call → Prop
  | _, [] => True
  | s, call :: calls => P s call ∧ Along P (s.step call).2 calls

theorem along_append {P : Session → Call → Prop} {s : Session} {before after : List Call} :
    s.Along P (before ++ after) ↔ s.Along P before ∧ (s.run before).Along P after := by
  induction before generalizing s with
  | nil => simp [Along]
  | cons call before ih => simp [Along, ih, and_assoc]

theorem Along.run {P : Session → Call → Prop} {Q : Session → Prop} {s : Session}
    {calls : List Call} (h : s.Along P calls)
    (hstep : ∀ s call, P s call → Q s → Q (s.step call).2) (hs : Q s) : Q (s.run calls) := by
  induction calls generalizing s with
  | nil => exact hs
  | cons call calls ih => exact ih h.2 (hstep s call h.1 hs)

end CovenantStaking.Session

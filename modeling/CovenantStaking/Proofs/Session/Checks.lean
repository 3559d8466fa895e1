import CovenantStaking.Proofs.Outcome
import CovenantStaking.Session.Call

/-!
# Checks without a session that changes

The checks change the session while they run: the staker is filled in, the pin is held against the
request, and a slashing is pinned before its outputs have been looked at. None of this outlasts a
failure, so what a verification answers and leaves can be told from checks that change nothing.
-/

namespace CovenantStaking

/-! ## Steps -/

namespace Steps

variable {α β : Type} {s : Session}

/-- Steps that come to what a computation without a session comes to. They change nothing but the
request and the pin; what these are after a failure is left open. -/
def Refines (steps : Steps α) (s : Session) (x : Except Failure (α × Request × KeyPin)) : Prop :=
  match x with
  | .ok (a, request, pin) => steps.outcome s = (.ok a, { s with request, pin })
  | .error cause => ∃ request pin, steps.outcome s = (.error cause, { s with request, pin })

theorem refines_pure (a : β) (s : Session) :
    Refines (pure a) s (pure (a, s.request, s.pin)) :=
  rfl

theorem refines_get_bind {next : Session → Steps β} {x : Except Failure (β × Request × KeyPin)}
    (h : (next s).Refines s x) : (get >>= next : Steps β).Refines s x :=
  h

theorem refines_set_bind {request : Request} {pin : KeyPin} {next : PUnit → Steps β}
    {x : Except Failure (β × Request × KeyPin)}
    (h : (next ⟨⟩).Refines { s with request, pin } x) :
    (set { s with request, pin } >>= next : Steps β).Refines s x := by
  cases x with
  | error cause => exact h
  | ok a => exact h

/-- A step that neither reads nor changes the session is the same step on both sides. -/
theorem refines_lift_bind {x : Except Failure α} {next : α → Steps β}
    {rest : α → Except Failure (β × Request × KeyPin)} (h : ∀ a, (next a).Refines s (rest a)) :
    (liftM x >>= next : Steps β).Refines s (x >>= rest) := by
  cases x with
  | error cause => exact ⟨s.request, s.pin, rfl⟩
  | ok a => exact h a

end Steps

namespace Session

open Steps

/-! ## The steps of the checks -/

variable {β : Type} {s : Session} {host : HostKeys}

theorem refines_resolveStaker_bind {next : Option PublicKey → Steps β}
    {rest : Option PublicKey × Request → Except Failure (β × Request × KeyPin)}
    (h : ∀ derived request, (next derived).Refines { s with request } (rest (derived, request))) :
    (resolveStaker host >>= next).Refines s (s.request.deriveStaker host >>= rest) := by
  simp only [resolveStaker, bind_assoc, pure_bind]
  exact refines_get_bind (refines_lift_bind fun (derived, request) =>
    refines_set_bind (h derived request))

/-- A pin that accepts the request is left alone; one that does not is lost with the failure. -/
theorem refines_checkPin_bind {next : Unit → Steps β}
    {rest : Unit → Except Failure (β × Request × KeyPin)} (h : (next ()).Refines s (rest ())) :
    (checkPin >>= next).Refines s (s.pin.accept s.request >>= rest) := by
  simp only [checkPin, bind_assoc]
  refine refines_get_bind (refines_set_bind ?_)
  unfold KeyPin.check
  cases s.pin.accept s.request with
  | error cause => exact ⟨s.request, .free, rfl⟩
  | ok u => exact h

theorem refines_pinSlashing_bind {action : Action} {next : Unit → Steps β}
    {x : Except Failure (β × Request × KeyPin)}
    (h : (next ()).Refines
      { s with pin := if action.isSlashing then s.pin.hold s.request else s.pin } x) :
    (pinSlashing action >>= next).Refines s x := by
  unfold pinSlashing
  by_cases hslashing : action.isSlashing
  · rw [if_pos hslashing] at h ⊢
    exact refines_set_bind h
  · rw [if_neg hslashing] at h ⊢
    exact h

/-! ## Checks -/

variable [Crypto]

/-- What comes of the checks when the session does not change meanwhile: what is approved, and the
request and the pin to leave. -/
def checks (s : Session) (tx : Transaction) (host : HostKeys) :
    Except Failure (Approval × Request × KeyPin) := do
  let (derived, request) ← s.request.deriveStaker host
  let terms ← request.terms derived
  let action := terms.action
  tx.checkShape action
  let fee ← tx.fee
  s.pin.accept request
  let leaf ← request.checkTransaction s.policy terms tx
  let feeWarning := action.warnsOfFee && s.policy.highFee < fee
  let pin := if action.isSlashing then s.pin.hold request else s.pin
  pure ({ action, terms, fee, feeWarning, leaf }, request, pin)

theorem runChecks_refines (s : Session) (tx : Transaction) (host : HostKeys) :
    (runChecks tx host).Refines s (s.checks tx host) := by
  unfold runChecks checks
  refine refines_resolveStaker_bind fun derived request => refines_get_bind ?_
  refine refines_lift_bind fun terms => refines_lift_bind fun _ => refines_lift_bind fun fee => ?_
  refine refines_checkPin_bind (refines_pinSlashing_bind (refines_get_bind ?_))
  exact refines_lift_bind fun leaf => refines_pure _ _

/-- What a failure leaves of the request and the pin is lost when the session is cleared, so it does
not matter how far the checks have come. -/
theorem verify_eq (s : Session) (tx : Transaction) (host : HostKeys) :
    s.verify tx host =
      match s.stage with
      | .parsed =>
        match s.checks tx host with
        | .ok (approval, request, pin) =>
          (.ok approval, { s with request, pin, stage := .verified })
        | .error cause => (.error cause, s.cleared .rejected)
      | .verified => (.error (.stage .alreadyVerified), s)
      | stage => (.error (.stage (.verifyIn stage)), s.cleared .rejected) := by
  have hrefines := runChecks_refines s tx host
  unfold verify
  cases s.stage with
  | parsed =>
      cases hchecks : s.checks tx host with
      | ok left =>
          rw [hchecks] at hrefines
          simp only [Refines] at hrefines
          simp only [hrefines]
      | error cause =>
          rw [hchecks] at hrefines
          obtain ⟨request, pin, houtcome⟩ := hrefines
          simp only [houtcome]
          rfl
  | unparsed => rfl
  | verified => rfl
  | rejected => rfl

end Session

end CovenantStaking

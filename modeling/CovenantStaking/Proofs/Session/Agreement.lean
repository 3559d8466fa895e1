import CovenantStaking.Proofs.Request.Agreement
import CovenantStaking.Proofs.Session.Pinning

/-!
# What a verification reads of a request

A verification reads the fields of the action and, where key sets are pinned, the key sets.
Sessions that are the same in these give the same answer, and have the same stage and pin
afterwards.
-/

namespace CovenantStaking

variable {a b : Request}

/-! ## Key sets -/

theorem Request.SameStakeFields.keySets_eq (h : SameStakeFields a b) : a.keySets = b.keySets := by
  rw [keySets, keySets, h.finalityProviders, h.covenantKeys, h.covenantQuorum]

theorem Request.Agrees.keySets_eq {action : Action} (h : a.Agrees b)
    (haction : a.action = some action) (hslashing : action.isSlashing) : a.keySets = b.keySets := by
  have hown := h.own action haction
  cases action with
  | slashing | slashingUnbonding => exact SameStakeFields.keySets_eq hown.toSameStakeFields
  | staking | unbond | withdraw | signMessage | expansion => cases hslashing

namespace KeyPin

variable {pin : KeyPin}

theorem accept_congr (h : pin.isPopulated → a.keySets = b.keySets) :
    pin.accept a = pin.accept b := by
  unfold accept
  cases hheld : pin.held with
  | none => rfl
  | some sets =>
      have hsets : a.keySets = b.keySets := h (by simp [isPopulated, hheld])
      simp only [hsets]

theorem hold_congr (h : a.keySets = b.keySets) : pin.hold a = pin.hold b := by
  simp only [hold, h]

end KeyPin

/-! ## Sessions -/

namespace Session

variable {s t : Session}

/-- Sessions that a verification cannot tell apart: they are at one stage, under one policy, with
one pin, and their requests agree in what the action needs and, against a pin, in the key sets. -/
structure Agrees (s t : Session) : Prop where
  stage : s.stage = t.stage
  policy : s.policy = t.policy
  pin : s.pin = t.pin
  request : s.request.Agrees t.request
  keySets : s.pin.isPopulated → s.request.keySets = t.request.keySets

namespace Agrees

theorem checks_eq [Crypto] (h : s.Agrees t) (tx : Transaction) (host : HostKeys) :
    t.checks tx host =
      (fun (approval, next, pin) => (approval, t.request.withStakerOf next, pin)) <$>
        s.checks tx host := by
  simp only [checks, h.request.deriveStaker_eq host, map_bind, bind_map_left, map_pure, ← h.pin,
    ← h.policy]
  refine bind_congr_of_ok ?_
  rintro ⟨derived, next⟩ hderive
  have hnext := h.request.of_deriveStaker hderive
  dsimp only
  rw [← hnext.terms_eq derived]
  refine bind_congr_of_ok fun terms hterms => ?_
  have haction := Request.action_of_terms hterms
  have hsets (hpinned : s.pin.isPopulated) :
      next.keySets = (t.request.withStakerOf next).keySets :=
    calc
      next.keySets = s.request.keySets := by rw [Request.deriveStaker_frame hderive]; rfl
      _ = t.request.keySets := h.keySets hpinned
  -- the key sets are pinned by a slashing alone, and are then fields of its own
  have hpin : (if terms.action.isSlashing then s.pin.hold next else s.pin) =
      if terms.action.isSlashing then s.pin.hold (t.request.withStakerOf next) else s.pin :=
    ite_congr rfl (fun hslashing => KeyPin.hold_congr (hnext.keySets_eq haction hslashing))
      fun _ => rfl
  rw [← KeyPin.accept_congr hsets, ← hnext.checkTransaction_eq haction, hpin]

end Agrees

/-- A verification gives sessions that agree the same answer, and leaves them at the same stage and
with the same pin. -/
theorem verify_of_agrees [Crypto] (h : s.Agrees t) (tx : Transaction) (host : HostKeys) :
    (s.verify tx host).1 = (t.verify tx host).1 ∧
      (s.verify tx host).2.stage = (t.verify tx host).2.stage ∧
      (s.verify tx host).2.pin = (t.verify tx host).2.pin := by
  rw [verify_eq, verify_eq, ← h.stage]
  cases hstage : s.stage with
  | parsed =>
      dsimp only
      rw [h.checks_eq]
      cases s.checks tx host with
      | error cause => exact ⟨rfl, rfl, rfl⟩
      | ok outcome => exact ⟨rfl, rfl, rfl⟩
  | verified => exact ⟨rfl, h.stage, h.pin⟩
  | unparsed | rejected => exact ⟨rfl, rfl, rfl⟩

/-- A loss that was agreed to is asked for again. -/
def lossAskedAgain : Session :=
  lossAsked ⟨.zero 32⟩ ⟨some (lossRequest ⟨.zero 32⟩).keySets⟩

/-- The same with fields sent along that no loss needs. -/
def lossAskedAmid : Session :=
  { lossAskedAgain with
    request := { lossRequest ⟨.zero 32⟩ with
      unbondingFeeLimit := some 1
      message := some [0x68, 0x69]
      messageKey := some (.xOnly ⟨.zero 32⟩)
      txid := some ⟨.zero 32⟩ } }

theorem agrees_lossAskedAmid : lossAskedAgain.Agrees lossAskedAmid where
  stage := rfl
  policy := rfl
  pin := rfl
  request := {
    action := rfl
    derivationPath := rfl
    stakerKey := rfl
    own := by
      rintro action ⟨⟩
      exact ⟨⟨rfl, rfl, rfl, rfl⟩, rfl, rfl⟩ }
  keySets := fun _ => rfl

theorem verify_of_agrees_loss :
    lossAskedAgain.Agrees lossAskedAmid ∧ lossAskedAgain.request ≠ lossAskedAmid.request ∧
      ∃ approval, (lossAskedAmid.verify lossTransaction .unavailable).1 = .ok approval ∧
        (lossAskedAmid.verify lossTransaction .unavailable).2.stage = .verified ∧
        (lossAskedAmid.verify lossTransaction .unavailable).2.pin = lossAskedAgain.pin := by
  obtain ⟨approval, -, hverify⟩ := @verify_loss ⟨.zero 32⟩ lossAskedAgain.pin
    (by rintro _ ⟨⟩; rfl)
  obtain ⟨hanswer, hstage, hpin⟩ :=
    verify_of_agrees agrees_lossAskedAmid lossTransaction .unavailable
  have hagain : lossAskedAgain.verify lossTransaction .unavailable = _ := hverify
  rw [hagain] at hanswer hstage hpin
  exact ⟨agrees_lossAskedAmid, nofun, approval, hanswer.symm, hstage.symm, hpin.symm⟩

end Session

end CovenantStaking

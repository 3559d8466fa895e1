import Mathlib.Data.List.Forall2
import CovenantStaking.Proofs.Session.Approval
import CovenantStaking.Proofs.Session.Steps

/-!
# The threshold of a high fee

The fee above which a policy warns is read once, for the warning itself. Sessions that differ in it
alone go through the same requests, pins and stages, and give the same answers but for the warning.
-/

namespace CovenantStaking

/-- Whether a fee that no rule of the action limits is above the threshold. -/
def Approval.IsHighAbove (highFee : UInt64) (approval : Approval) : Prop :=
  (approval.action = .staking ∨ approval.action = .expansion ∨ approval.action = .withdraw) ∧
    highFee < approval.fee

/-- The approval as it is given under another threshold. -/
def Approval.warnedAbove (highFee : UInt64) (approval : Approval) : Approval :=
  { approval with feeWarning := approval.action.warnsOfFee && highFee < approval.fee }

theorem Approval.feeWarning_warnedAbove_iff {highFee : UInt64} {approval : Approval} :
    (approval.warnedAbove highFee).feeWarning ↔ approval.IsHighAbove highFee := by
  unfold warnedAbove IsHighAbove
  cases approval.action <;> simp [Action.warnsOfFee]

namespace Answer

/-- The answer as it is given under another threshold. -/
def warnedAbove (highFee : UInt64) : Answer → Answer
  | verified (.ok approval) => verified (.ok (approval.warnedAbove highFee))
  | answer => answer

/-- The answer with nothing said about the fee. -/
def unwarned : Answer → Answer
  | verified (.ok approval) => verified (.ok { approval with feeWarning := false })
  | answer => answer

/-- An approval, if the answer is one, warns of exactly the fees that are high. -/
def WarnsAbove (highFee : UInt64) (answer : Answer) : Prop :=
  ∀ approval, answer = verified (.ok approval) →
    (approval.feeWarning ↔ approval.IsHighAbove highFee)

variable {answer : Answer} {highFee : UInt64}

theorem unwarned_warnedAbove : (answer.warnedAbove highFee).unwarned = answer.unwarned := by
  rcases answer with _ | (_ | _) | _ <;> rfl

theorem warnsAbove_warnedAbove : (answer.warnedAbove highFee).WarnsAbove highFee := by
  intro approval h
  rcases answer with _ | (_ | given) | _ <;> cases h
  exact Approval.feeWarning_warnedAbove_iff

end Answer

/-- No rule of an action reads the threshold. -/
theorem Request.checkTransaction_highFee [Crypto] (r : Request) (policy : Policy) (highFee : UInt64)
    (terms : Terms) (tx : Transaction) :
    r.checkTransaction { policy with highFee } terms tx = r.checkTransaction policy terms tx := by
  cases terms <;> rfl

namespace Session

/-- The session with another threshold. -/
def warningAbove (s : Session) (highFee : UInt64) : Session :=
  { s with policy := { s.policy with highFee } }

variable [Crypto]

/-! ## One call -/

theorem checks_warningAbove (s : Session) (highFee : UInt64) (tx : Transaction) (host : HostKeys) :
    (s.warningAbove highFee).checks tx host =
      (fun (approval, left) => (approval.warnedAbove highFee, left)) <$> s.checks tx host := by
  simp only [checks, warningAbove, Request.checkTransaction_highFee, map_bind, map_pure]
  rfl

theorem verify_warningAbove (s : Session) (highFee : UInt64) (tx : Transaction) (host : HostKeys) :
    (s.warningAbove highFee).verify tx host =
      (Approval.warnedAbove highFee <$> (s.verify tx host).1,
        (s.verify tx host).2.warningAbove highFee) := by
  rw [verify_eq, verify_eq]
  cases hstage : s.stage with
  | parsed =>
      rw [checks_warningAbove]
      simp only [warningAbove, hstage]
      cases s.checks tx host <;> rfl
  | verified | unparsed | rejected =>
      simp only [warningAbove, hstage]
      rfl

theorem step_warningAbove (s : Session) (highFee : UInt64) (call : Call) :
    (s.warningAbove highFee).step call =
      ((s.step call).1.warnedAbove highFee, (s.step call).2.warningAbove highFee) := by
  cases call with
  | load blob =>
      simp only [step, load_eq]
      cases Blob.decode blob <;> rfl
  | verify tx host =>
      simp only [step, verify_warningAbove]
      cases (s.verify tx host).1 <;> rfl
  | finish => rfl

/-! ## Many calls -/

theorem trace_warningAbove (s : Session) (highFee : UInt64) (calls : List Call) :
    (s.warningAbove highFee).trace calls =
      (s.trace calls).map fun (answer, next) =>
        (answer.warnedAbove highFee, next.warningAbove highFee) := by
  induction calls generalizing s with
  | nil => rfl
  | cons call calls ih => simp only [trace, step_warningAbove, ih, List.map_cons]

/-- What one session answers and becomes under a threshold, and the other under another one: the
same, except that each warns above its own. -/
structure DifferInWarning (a b : UInt64) (one other : Answer × Session) : Prop where
  answer : one.1.unwarned = other.1.unwarned
  request : one.2.request = other.2.request
  pin : one.2.pin = other.2.pin
  stage : one.2.stage = other.2.stage
  warnsOne : one.1.WarnsAbove a
  warnsOther : other.1.WarnsAbove b

/-- New sessions whose policies differ in the threshold alone are in step with each other through
every list of calls. -/
theorem trace_differInWarning (policy : Policy) (a b : UInt64) (calls : List Call) :
    List.Forall₂ (DifferInWarning a b) ((start { policy with highFee := a }).trace calls)
      ((start { policy with highFee := b }).trace calls) := by
  have htrace (highFee : UInt64) : (start { policy with highFee }).trace calls = _ :=
    trace_warningAbove (start policy) highFee calls
  rw [htrace a, htrace b, List.forall₂_map_left_iff, List.forall₂_map_right_iff, List.forall₂_same]
  rintro ⟨answer, next⟩ -
  exact {
    answer := Answer.unwarned_warnedAbove.trans Answer.unwarned_warnedAbove.symm
    request := rfl
    pin := rfl
    stage := rfl
    warnsOne := Answer.warnsAbove_warnedAbove
    warnsOther := Answer.warnsAbove_warnedAbove }

end Session

end CovenantStaking

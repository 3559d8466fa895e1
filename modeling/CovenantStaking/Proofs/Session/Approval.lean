import CovenantStaking.Proofs.Request.Rules
import CovenantStaking.Proofs.Session.Checks

/-!
# When a session approves

A loaded session approves a transaction exactly when the staker is found, the request has terms, and
the transaction passes the checks that every action has and those of its own action.
-/

namespace CovenantStaking

/-- The pinned key sets, if any are pinned, are the ones given. -/
def KeyPin.Admits (pin : KeyPin) (sets : KeySets) : Prop :=
  ∀ pinned ∈ pin.held, pinned = sets

theorem KeyPin.accept_eq_ok_iff {pin : KeyPin} {r : Request} {u : Unit} :
    pin.accept r = .ok u ↔ pin.Admits r.keySets := by
  unfold accept Admits
  cases pin.held with
  | none => simp
  | some pinned =>
      simp only [Option.mem_some_iff, forall_eq']
      rw [← KeySets.difference?_eq_none_iff]
      cases pinned.difference? r.keySets with
      | none => simp
      | some part => simp

namespace Session

variable {s next : Session} {tx : Transaction} {host : HostKeys} {approval : Approval}

/-- The pin after an approval: a slashing pins the key sets of its request. -/
def pinAfter (s : Session) (action : Action) (request : Request) : KeyPin :=
  if action.isSlashing then s.pin.hold request else s.pin

/-- What is approved for terms: the warning is raised for high fees that no rule limits. -/
def approve (s : Session) (terms : Terms) (fee : UInt64) (leaf : Option TapNode) : Approval where
  action := terms.action
  terms := terms
  fee := fee
  feeWarning := terms.action.warnsOfFee && s.policy.highFee < fee
  leaf := leaf

/-! ## Terms of a stake -/

/-- Where the terms are those of a stake, whoever the staker is, the stake is the one that the
request describes, and its staker is the one that the request resolves to. -/
theorem derivesTerms_iff {IsTerms : StakeTerms → Terms → Prop}
    (hterms : ∀ (request : Request) derived terms,
      request = { s.request with stakerKey := request.stakerKey } →
      (request.terms derived = .ok terms ↔
        ∃ stake, request.stakeTerms = .ok stake ∧ IsTerms stake terms))
    {request : Request} {terms : Terms} :
    (∃ derived, s.request.deriveStaker host = .ok (derived, request) ∧
      request.terms derived = .ok terms) ↔ ∃ stake,
      s.request.ResolvesTo host stake.staker ∧ s.request.Describes stake ∧
      request = s.request.withStaker stake.staker ∧ IsTerms stake terms := by
  constructor
  · rintro ⟨derived, hderive, hderived⟩
    obtain ⟨stake, hstake, his⟩ :=
      (hterms _ _ _ (Request.deriveStaker_frame hderive)).mp hderived
    obtain ⟨hresolves, hdescribes, rfl⟩ :=
      Request.deriveStaker_stakeTerms_iff.mp ⟨⟨derived, hderive⟩, hstake⟩
    exact ⟨stake, hresolves, hdescribes, rfl, his⟩
  · rintro ⟨stake, hresolves, hdescribes, rfl, his⟩
    obtain ⟨⟨derived, hderive⟩, hstake⟩ :=
      Request.deriveStaker_stakeTerms_iff.mpr ⟨hresolves, hdescribes, rfl⟩
    exact ⟨derived, hderive, (hterms _ _ _ rfl).mpr ⟨stake, hstake, his⟩⟩

/-! ## Approval -/

variable [Crypto]

/-- The checks that a loaded request has passed when its transaction is approved; `request` is the
request with its staker filled in. -/
structure Passes (s : Session) (tx : Transaction) (host : HostKeys) (request : Request)
    (terms : Terms) (fee : UInt64) (leaf : Option TapNode) : Prop where
  derivesTerms : ∃ derived, s.request.deriveStaker host = .ok (derived, request) ∧
    request.terms derived = .ok terms
  inputs : terms.action.allowsInputs tx.inputs.length
  outputs : terms.action.leastOutputs ≤ tx.outputs.length
  balances : tx.Balances fee
  keySets : s.pin.Admits request.keySets
  rules : request.checkTransaction s.policy terms tx = .ok leaf

theorem checks_eq_ok_iff {outcome : Approval × Request × KeyPin} :
    s.checks tx host = .ok outcome ↔ ∃ request terms fee leaf,
      s.Passes tx host request terms fee leaf ∧
      outcome = (s.approve terms fee leaf, request, s.pinAfter terms.action request) := by
  simp only [checks, bind_eq_ok_iff, Prod.exists, Transaction.checkShape_eq_ok_iff,
    Transaction.fee_eq_ok_iff, KeyPin.accept_eq_ok_iff, exists_const, pure_eq_ok_iff]
  constructor
  · rintro ⟨derived, request, hderive, terms, hterms, ⟨hinputs, houtputs⟩, fee, hfee, hsets, leaf,
      hrules, rfl⟩
    exact ⟨request, terms, fee, leaf,
      ⟨⟨derived, hderive, hterms⟩, hinputs, houtputs, hfee, hsets, hrules⟩, rfl⟩
  · rintro ⟨request, terms, fee, leaf, h, rfl⟩
    obtain ⟨derived, hderive, hterms⟩ := h.derivesTerms
    exact ⟨derived, request, hderive, terms, hterms, ⟨h.inputs, h.outputs⟩, fee, h.balances,
      h.keySets, leaf, h.rules, rfl⟩

theorem verify_eq_ok_iff :
    s.verify tx host = (.ok approval, next) ↔ s.stage = .parsed ∧ ∃ request pin,
      s.checks tx host = .ok (approval, request, pin) ∧
      next = { s with request, pin, stage := .verified } := by
  rw [verify_eq]
  cases s.stage with
  | parsed =>
      cases s.checks tx host with
      | ok outcome =>
          obtain ⟨given, request, pin⟩ := outcome
          simp only [Prod.mk.injEq, Except.ok.injEq, true_and, and_assoc]
          constructor
          · rintro ⟨rfl, rfl⟩
            exact ⟨request, pin, rfl, rfl, rfl, rfl⟩
          · rintro ⟨_, _, rfl, rfl, rfl, rfl⟩
            exact ⟨rfl, rfl⟩
      | error cause => simp
  | unparsed => simp
  | verified => simp
  | rejected => simp

theorem verify_eq_ok_iff_passes :
    s.verify tx host = (.ok approval, next) ↔ s.stage = .parsed ∧ ∃ request terms fee leaf,
      s.Passes tx host request terms fee leaf ∧ approval = s.approve terms fee leaf ∧
      next = { s with request, pin := s.pinAfter terms.action request, stage := .verified } := by
  simp only [verify_eq_ok_iff, checks_eq_ok_iff, Prod.mk.injEq]
  constructor
  · rintro ⟨hstage, request, _, ⟨_, terms, fee, leaf, hpasses, rfl, rfl, rfl⟩, rfl⟩
    exact ⟨hstage, request, terms, fee, leaf, hpasses, rfl, rfl⟩
  · rintro ⟨hstage, request, terms, fee, leaf, hpasses, rfl, rfl⟩
    exact ⟨hstage, request, _, ⟨request, terms, fee, leaf, hpasses, rfl, rfl, rfl⟩, rfl⟩

end Session

end CovenantStaking

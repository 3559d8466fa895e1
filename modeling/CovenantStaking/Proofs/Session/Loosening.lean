import CovenantStaking.Proofs.Session.Pinning

/-!
# Looser policies

A policy is asked for reasons to refuse and for nothing else, but for the warning of a high fee. So
whatever is approved under a policy is approved under every one that refuses less.
-/

namespace CovenantStaking

variable {loose strict : Policy}

/-- Every fee limit that the second policy admits, the first one does, and the first one is for the
main network only if the second one is. -/
structure Policy.Loosens (loose strict : Policy) : Prop where
  limits : ∀ limit, strict.Admits limit → loose.Admits limit
  network : loose.network = .mainnet → strict.network = .mainnet

namespace Request

variable {r : Request} {tx : Transaction}

/-! ## The rules that ask the policy -/

theorem checkUnbond_of_loosens [Crypto] {fee : UInt64} (hloosens : loose.Loosens strict)
    (h : r.checkUnbond strict tx = .ok fee) : r.checkUnbond loose tx = .ok fee := by
  simp only [checkUnbond, bind_eq_ok_iff, Policy.checkLimit_eq_ok_iff] at h ⊢
  obtain ⟨limit, hlimit, u, hadmits, hrest⟩ := h
  exact ⟨limit, hlimit, u, hloosens.limits limit hadmits, hrest⟩

theorem checkBurn_of_loosens {burnAddress : Bytes} {u : Unit} (hloosens : loose.Loosens strict)
    (h : checkBurn strict burnAddress tx = .ok u) : checkBurn loose burnAddress tx = .ok u := by
  rw [checkBurn_eq_ok_iff] at h ⊢
  exact ⟨h.paid, fun hmain => h.unspendable (hloosens.network hmain)⟩

theorem checkSlashing_of_loosens [Crypto] {fee : UInt64} (hloosens : loose.Loosens strict)
    (h : r.checkSlashing strict tx = .ok fee) : r.checkSlashing loose tx = .ok fee := by
  simp only [checkSlashing, bind_eq_ok_iff, Policy.checkLimit_eq_ok_iff] at h ⊢
  obtain ⟨limit, hlimit, u, hadmits, burnAddress, hburn, fee', hfee, v, hle, leaf, hleaf, w,
    hchange, x, hburns, heq⟩ := h
  exact ⟨limit, hlimit, u, hloosens.limits limit hadmits, burnAddress, hburn, fee', hfee, v, hle,
    leaf, hleaf, w, hchange, x, checkBurn_of_loosens hloosens hburns, heq⟩

theorem checkTransaction_of_loosens [Crypto] {terms : Terms} {leaf : Option TapNode}
    (hloosens : loose.Loosens strict) (h : r.checkTransaction strict terms tx = .ok leaf) :
    r.checkTransaction loose terms tx = .ok leaf := by
  cases terms with
  | unbond _ _ =>
      simp only [checkTransaction, bind_eq_ok_iff] at h ⊢
      obtain ⟨fee, hfee, hrest⟩ := h
      exact ⟨fee, checkUnbond_of_loosens hloosens hfee, hrest⟩
  | slashing _ _ _ _ =>
      simp only [checkTransaction, bind_eq_ok_iff] at h ⊢
      obtain ⟨fee, hfee, hrest⟩ := h
      exact ⟨fee, checkSlashing_of_loosens hloosens hfee, hrest⟩
  | staking _ | expansion _ | withdraw | signMessage _ _ _ => exact h

end Request

/-! ## Sessions -/

namespace Session

variable {s next : Session} {tx : Transaction} {host : HostKeys} {approval : Approval}
  {policy : Policy}

theorem Passes.of_loosens [Crypto] {request : Request} {terms : Terms} {fee : UInt64}
    {leaf : Option TapNode} (h : s.Passes tx host request terms fee leaf)
    (hloosens : policy.Loosens s.policy) :
    { s with policy }.Passes tx host request terms fee leaf where
  derivesTerms := h.derivesTerms
  inputs := h.inputs
  outputs := h.outputs
  balances := h.balances
  keySets := h.keySets
  rules := Request.checkTransaction_of_loosens hloosens h.rules

/-- What is approved under a policy is approved under a looser one, and all that can change is the
warning. -/
theorem verify_of_loosens [Crypto] (hloosens : policy.Loosens s.policy)
    (h : s.verify tx host = (.ok approval, next)) :
    ∃ warning, { s with policy }.verify tx host =
      (.ok { approval with feeWarning := warning }, { next with policy }) := by
  obtain ⟨hstage, request, terms, fee, leaf, hpasses, rfl, rfl⟩ := verify_eq_ok_iff_passes.mp h
  exact ⟨_, verify_eq_ok_iff_passes.mpr
    ⟨hstage, request, terms, fee, leaf, hpasses.of_loosens hloosens, rfl, rfl⟩⟩

/-- A loss that is agreed to on the main network, its limit within bounds, is agreed to on a test
network without any. -/
theorem verify_of_loosens_loss :
    let lax : Policy := ⟨.testnet, none, 0⟩
    lax.Loosens .standard ∧ ∃ approval next,
      (lossAsked ⟨.zero 32⟩ .free).verify lossTransaction .unavailable = (.ok approval, next) ∧
      ∃ warning, { lossAsked ⟨.zero 32⟩ .free with policy := lax }.verify lossTransaction
        .unavailable =
          (.ok { approval with feeWarning := warning }, { next with policy := lax }) := by
  intro lax
  have hloosens : lax.Loosens .standard := ⟨fun _ _ => nofun, nofun⟩
  obtain ⟨approval, -, hverify⟩ := @verify_loss ⟨.zero 32⟩ .free nofun
  exact ⟨hloosens, approval, _, hverify, verify_of_loosens hloosens hverify⟩

end Session

end CovenantStaking

import CovenantStaking.Proofs.Session.Approval
import CovenantStaking.Proofs.Session.Steps
import Mathlib.Data.List.Induction

/-!
# Where a session's request comes from

A session holds the request of the blob that was loaded last, as it was sent until a transaction is
approved and with its staker settled from then on, or it holds nothing. The last calls tell which.
-/

namespace CovenantStaking

/-- A request once its staker is settled: it stays as it was sent, but the key that the host derives
at its path is the staker's, if it has a path. -/
def Request.SettledBy (sent : Request) (host : HostKeys) (r : Request) : Prop :=
  match sent.derivationPath with
  | none => r = sent
  | some path => ∃ key, host path = .ok key ∧ r = sent.withStaker key.xOnly

theorem Request.settledBy_of_deriveStaker {sent r : Request} {host : HostKeys}
    {derived : Option PublicKey} (h : sent.deriveStaker host = .ok (derived, r)) :
    sent.SettledBy host r := by
  unfold SettledBy
  rcases deriveStaker_eq_ok_iff.mp h with ⟨hpath, -, rfl⟩ | ⟨path, key, hkey, -, rfl⟩
  · rw [hpath]
  · rw [hkey.sentPath]
    exact ⟨key, hkey.derived, rfl⟩

namespace Session

/-! ## What a session holds -/

/-- The session holds what the blob of the last call spells. -/
def LoadedBy (s : Session) (calls : List Call) : Prop :=
  ∃ before blob, calls = before ++ [.load blob] ∧ Blob.decode blob = .ok s.request

/-- Of these calls on a new session the last load was followed by an approval, and by no more than
verifications since. The session holds what the blob spells, its staker settled by the host of the
approval. -/
def ApprovedBy [Crypto] (s : Session) (policy : Policy) (calls : List Call) : Prop :=
  ∃ before blob tx host approval again sent,
    calls = before ++ .load blob :: .verify tx host :: again ∧
    (((start policy).run (before ++ [.load blob])).verify tx host).1 = .ok approval ∧
    (∀ call ∈ again, ∃ tx host, call = .verify tx host) ∧
    Blob.decode blob = .ok sent ∧ sent.SettledBy host s.request

/-- Where what a session holds comes from, for each of its stages. -/
inductive Origin [Crypto] (policy : Policy) (calls : List Call) (s : Session) : Prop
  | blank (hstage : s.stage = .unparsed ∨ s.stage = .rejected) (hrequest : s.request = .empty)
      (hpin : s.pin = .free)
  | loaded (hstage : s.stage = .parsed) (hloaded : s.LoadedBy calls)
  | approved (hstage : s.stage = .verified) (happroved : s.ApprovedBy policy calls)

variable [Crypto] {s : Session} {policy : Policy} {calls : List Call}

namespace Origin

theorem of_blank (h : Origin policy calls s) (hstage : s.stage = .unparsed ∨ s.stage = .rejected) :
    s.request = .empty ∧ s.pin = .free := by
  cases h with
  | blank _ hrequest hpin => exact ⟨hrequest, hpin⟩
  | loaded hparsed => simp [hparsed] at hstage
  | approved hverified => simp [hverified] at hstage

theorem of_parsed (h : Origin policy calls s) (hstage : s.stage = .parsed) : s.LoadedBy calls := by
  cases h with
  | blank hblank => simp [hstage] at hblank
  | loaded _ hloaded => exact hloaded
  | approved hverified => cases hverified.symm.trans hstage

theorem of_verified (h : Origin policy calls s) (hstage : s.stage = .verified) :
    s.ApprovedBy policy calls := by
  cases h with
  | blank hblank => simp [hstage] at hblank
  | loaded hparsed => cases hparsed.symm.trans hstage
  | approved _ happroved => exact happroved

end Origin

/-! ## One call more -/

/-- An approval settles the staker of the request that was loaded for it. -/
theorem LoadedBy.approvedBy {tx : Transaction} {host : HostKeys} {approval : Approval}
    {next : Session} (h : s.LoadedBy calls) (hs : (start policy).run calls = s)
    (hverify : s.verify tx host = (.ok approval, next)) :
    next.ApprovedBy policy (calls ++ [.verify tx host]) := by
  obtain ⟨before, blob, rfl, hdecode⟩ := h
  obtain ⟨-, _, _, _, _, hpasses, -, rfl⟩ := verify_eq_ok_iff_passes.mp hverify
  obtain ⟨_, hderive, -⟩ := hpasses.derivesTerms
  refine ⟨before, blob, tx, host, approval, [], s.request, by simp, ?_, nofun, hdecode,
    Request.settledBy_of_deriveStaker hderive⟩
  rw [hs, hverify]

/-- A verification after the approval changes nothing. -/
theorem ApprovedBy.verify (h : s.ApprovedBy policy calls) (tx : Transaction) (host : HostKeys) :
    s.ApprovedBy policy (calls ++ [.verify tx host]) := by
  obtain ⟨before, blob, tx', host', approval, again, sent, rfl, happroved, hagain, hsent⟩ := h
  refine ⟨before, blob, tx', host', approval, again ++ [.verify tx host], sent, by simp, happroved,
    ?_, hsent⟩
  intro call hcall
  rcases List.mem_append.mp hcall with hearlier | hlast
  · exact hagain call hearlier
  · exact ⟨tx, host, List.mem_singleton.mp hlast⟩

theorem Origin.step (h : Origin policy calls s) (hs : (start policy).run calls = s) (call : Call) :
    Origin policy (calls ++ [call]) (s.step call).2 := by
  have hyields := s.yields_step call
  generalize s.step call = outcome at hyields ⊢
  cases hyields with
  | loaded hdecode => exact .loaded rfl ⟨calls, _, rfl, hdecode⟩
  | unreadable | refused | untimely => exact .blank (.inr rfl) rfl rfl
  | finished => exact .blank (.inl rfl) rfl rfl
  | approved hstage hchecks =>
      have hverify := verify_eq_ok_iff.mpr ⟨hstage, _, _, hchecks, rfl⟩
      exact .approved rfl ((h.of_parsed hstage).approvedBy hs hverify)
  | repeated hstage => exact .approved hstage ((h.of_verified hstage).verify _ _)

/-! ## Many calls -/

theorem origin_run (policy : Policy) (calls : List Call) :
    Origin policy calls ((start policy).run calls) := by
  induction calls using List.reverseRecOn with
  | nil => exact .blank (.inl rfl) rfl rfl
  | append_singleton calls call ih =>
      rw [run_concat]
      exact ih.step rfl call

theorem Reachable.exists_decode (h : s.Reachable) (hstage : s.stage = .parsed) :
    ∃ blob, Blob.decode blob = .ok s.request := by
  obtain ⟨policy, calls, rfl⟩ := h
  obtain ⟨_, blob, -, hdecode⟩ := (origin_run policy calls).of_parsed hstage
  exact ⟨blob, hdecode⟩

end Session

end CovenantStaking

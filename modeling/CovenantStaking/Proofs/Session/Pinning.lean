import CovenantStaking.Blob.Writing
import CovenantStaking.Proofs.Session.KeySetFailure
import CovenantStaking.Proofs.Session.Slashing
import CovenantStaking.Proofs.Session.Steps
import Mathlib.Data.List.Induction

/-!
# Approved key sets stay

Once a slashing has been approved, no request with other key sets passes, until the session is
finished or rejected; and no request is turned away for its key sets without such an approval, if
not by the host or the backend itself.
-/

namespace CovenantStaking

theorem KeyPin.hold_held {pin : KeyPin} {r : Request} (h : pin.Admits r.keySets) :
    (pin.hold r).held = some r.keySets := by
  unfold hold
  cases hheld : pin.held with
  | none => rfl
  | some sets => exact hheld.trans (congrArg some (h sets hheld))

theorem KeyPin.hold_of_held {pin : KeyPin} {sets : KeySets} (h : pin.held = some sets)
    (r : Request) : pin.hold r = pin := by
  simp only [hold, h]

namespace Session

section

variable [Crypto] {s : Session} {call : Call} {sets : KeySets}

/-- The call ends what the session holds: it finishes the session, or fails and has it rejected. -/
def Wipes (s : Session) (call : Call) : Prop :=
  call = .finish ∨ (s.step call).2.stage = .rejected

/-- The call is a verification that agrees to the loss of a stake. -/
def Slashes (s : Session) (call : Call) : Prop :=
  ∃ approval, (s.step call).1 = .verified (.ok approval) ∧ approval.action.isSlashing

/-! ## One call -/

/-- Whatever is approved has key sets that the pin admits, and a slashing pins them. -/
theorem pin_of_approved {approval : Approval} (h : (s.step call).1 = .verified (.ok approval)) :
    s.pin.Admits (s.step call).2.request.keySets ∧
      (s.step call).2.pin = s.pinAfter approval.action (s.step call).2.request := by
  have hyields := s.yields_step call
  generalize s.step call = outcome at h hyields ⊢
  cases hyields with
  | approved hstage hchecks =>
      obtain ⟨request, terms, fee, leaf, hpasses, heq⟩ := checks_eq_ok_iff.mp hchecks
      cases heq
      cases h
      exact ⟨hpasses.keySets, rfl⟩
  | loaded | unreadable | refused | repeated | untimely | finished => cases h

theorem Slashes.pin_step (h : s.Slashes call) : s.pin.Admits (s.step call).2.request.keySets ∧
    (s.step call).2.pin = s.pin.hold (s.step call).2.request := by
  obtain ⟨approval, happroved, hslashing⟩ := h
  obtain ⟨hadmits, hpin⟩ := pin_of_approved happroved
  exact ⟨hadmits, hpin.trans (if_pos hslashing)⟩

theorem Wipes.step_eq (h : s.Wipes call) : ∃ stage, (s.step call).2 = s.cleared stage := by
  have hyields := s.yields_step call
  unfold Wipes at h
  generalize s.step call = outcome at h hyields ⊢
  cases hyields with
  | unreadable | refused | untimely | finished => exact ⟨_, rfl⟩
  | loaded | approved =>
      rcases h with hfinish | hrejected
      · cases hfinish
      · cases hrejected
  | repeated hstage =>
      rcases h with hfinish | hrejected
      · cases hfinish
      · cases hstage.symm.trans hrejected

theorem Wipes.pin_step (h : s.Wipes call) : (s.step call).2.pin = .free := by
  obtain ⟨stage, hstep⟩ := h.step_eq
  rw [hstep]
  rfl

theorem pin_step (hkept : ¬s.Wipes call) (hother : ¬s.Slashes call) :
    (s.step call).2.pin = s.pin := by
  have hyields := s.yields_step call
  unfold Wipes at hkept
  unfold Slashes at hother
  generalize s.step call = outcome at hkept hother hyields ⊢
  cases hyields with
  | loaded | repeated => rfl
  | approved hstage hchecks =>
      obtain ⟨request, terms, fee, leaf, _, heq⟩ := checks_eq_ok_iff.mp hchecks
      cases heq
      exact if_neg fun hslashing => hother ⟨_, rfl, hslashing⟩
  | unreadable | refused | untimely => exact absurd (.inr rfl) hkept
  | finished => exact absurd (.inl rfl) hkept

theorem Slashes.held (h : s.Slashes call) :
    (s.step call).2.pin.held = some (s.step call).2.request.keySets := by
  obtain ⟨hadmits, hpin⟩ := h.pin_step
  rw [hpin]
  exact KeyPin.hold_held hadmits

theorem held_step (hkept : ¬s.Wipes call) (hheld : s.pin.held = some sets) :
    (s.step call).2.pin.held = some sets := by
  by_cases hslashes : s.Slashes call
  · rw [hslashes.pin_step.2, KeyPin.hold_of_held hheld, hheld]
  · rw [pin_step hkept hslashes, hheld]

/-- What is pinned after a call was pinned before it, or the call pins it. -/
theorem held_of_held_step (h : (s.step call).2.pin.held = some sets) : ¬s.Wipes call ∧
    (s.pin.held = some sets ∨
      s.pin.held = none ∧ s.Slashes call ∧ (s.step call).2.request.keySets = sets) := by
  have hkept : ¬s.Wipes call := fun hwipes => by
    rw [hwipes.pin_step] at h
    cases h
  refine ⟨hkept, ?_⟩
  cases hheld : s.pin.held with
  | some pinned => exact .inl ((held_step hkept hheld).symm.trans h)
  | none =>
      by_cases hslashes : s.Slashes call
      · exact .inr ⟨rfl, hslashes, Option.some.inj (hslashes.held.symm.trans h)⟩
      · rw [pin_step hkept hslashes, hheld] at h
        cases h

/-! ## Runs -/

/-- The call agrees to the loss of a stake, and no later call ends what the session holds. -/
def SlashedAt (s : Session) (before : List Call) (slash : Call) (later : List Call) : Prop :=
  (s.run before).Slashes slash ∧
    (s.run (before ++ [slash])).Along (fun t call => ¬t.Wipes call) later

variable {before later : List Call} {slash : Call}

theorem SlashedAt.held (h : s.SlashedAt before slash later) :
    (s.run (before ++ slash :: later)).pin.held =
      some (s.run (before ++ [slash])).request.keySets := by
  obtain ⟨hslashes, hkept⟩ := h
  rw [List.append_cons, run_append s (before ++ [slash]) later]
  apply hkept.run (fun t call hcall => held_step hcall)
  rw [run_concat]
  exact hslashes.held

/-- What is pinned are the key sets of the first slashing that was approved since all was wiped. -/
theorem exists_slashedAt_of_held (hfree : s.pin = .free) {calls : List Call}
    (hheld : (s.run calls).pin.held = some sets) : ∃ before slash later,
      calls = before ++ slash :: later ∧ s.SlashedAt before slash later ∧
      (∀ earlier call between, before = earlier ++ call :: between →
        ¬s.SlashedAt earlier call between) ∧
      (s.run (before ++ [slash])).request.keySets = sets := by
  induction calls using List.reverseRecOn with
  | nil =>
      rw [run_nil, hfree] at hheld
      cases hheld
  | append_singleton calls call ih =>
      rw [run_concat] at hheld
      obtain ⟨hkept, hcase⟩ := held_of_held_step hheld
      rcases hcase with hearlier | ⟨hnone, hslashes, hsets⟩
      · obtain ⟨before, slash, later, rfl, ⟨hslashes, halong⟩, hfirst, hsets⟩ := ih hearlier
        rw [List.append_cons, run_append s (before ++ [slash]) later] at hkept
        exact ⟨before, slash, later ++ [call], by simp,
          ⟨hslashes, along_append.mpr ⟨halong, hkept, trivial⟩⟩, hfirst, hsets⟩
      · refine ⟨calls, call, [], rfl, ⟨hslashes, trivial⟩, ?_, ?_⟩
        · rintro earlier call' between rfl hslashed
          cases hslashed.held.symm.trans hnone
        · rw [run_concat, hsets]

/-- Whatever is approved after a slashing, with nothing wiped in between, has its key sets. -/
theorem keySets_of_slashedAt (h : s.SlashedAt before slash later) {tx : Transaction}
    {host : HostKeys} {approval : Approval}
    (happroved : ((s.run (before ++ slash :: later)).verify tx host).1 = .ok approval) :
    ((s.run (before ++ slash :: later)).verify tx host).2.request.keySets =
      (s.run (before ++ [slash])).request.keySets := by
  have hanswer : ((s.run (before ++ slash :: later)).step (.verify tx host)).1 =
      .verified (.ok approval) := congrArg Answer.verified happroved
  exact ((pin_of_approved hanswer).1 _ h.held).symm

/-- A verification that fails for key sets does so because the backend or the host does, or the
first slashing that was approved since all was wiped was one with other key sets. -/
theorem slashedAt_of_keySet {calls : List Call} {tx : Transaction} {host : HostKeys}
    {part : KeySetPart} (hfree : s.pin = .free)
    (hrefused : ((s.run calls).verify tx host).1 = .error (.keySet part)) :
    (∃ root : TapNode, root.outputKey = .error (.keySet part)) ∨
      (∃ path, (s.run calls).request.derivationPath = some path ∧
        host path = .error (.keySet part)) ∨
      ∃ before slash later, calls = before ++ slash :: later ∧ s.SlashedAt before slash later ∧
        (∀ earlier call between, before = earlier ++ call :: between →
          ¬s.SlashedAt earlier call between) ∧
        (s.run calls).request.keySets ≠ (s.run (before ++ [slash])).request.keySets := by
  refine (verify_eq_keySet hrefused).imp_right (Or.imp_right ?_)
  rintro ⟨sets, hheld, hne⟩
  obtain ⟨before, slash, later, hcalls, hslashed, hfirst, rfl⟩ :=
    exists_slashedAt_of_held hfree hheld
  exact ⟨before, slash, later, hcalls, hslashed, hfirst, hne.symm⟩

end

/-! ## A loss that is agreed to and asked for again -/

variable {s : Session}

/-- The blob that asks for the loss of a stake. -/
def lossBlob (covenantKey : XOnlyKey) : Bytes :=
  Blob.write [.single (.action .slashing), .finalityProviders [⟨.zero 32⟩],
    .covenant [covenantKey] 1, .single (.stakerKey ⟨.zero 32⟩), .single (.timelock 144),
    .single (.slashingFeeLimit 1000), .single (.burnAddress [0x6a])]

/-- The session that it leaves. -/
def lossAsked (covenantKey : XOnlyKey) (pin : KeyPin) : Session :=
  ⟨.standard, lossRequest covenantKey, pin, .parsed⟩

/-- A loss is agreed to, and one under a covenant of the given key is asked for. -/
def lossCalls (covenantKey : XOnlyKey) : List Call :=
  [.load (lossBlob ⟨.zero 32⟩), .verify lossTransaction .unavailable, .load (lossBlob covenantKey)]

theorem decode_lossBlob :
    ∀ key ∈ [XOnlyKey.mk (.zero 32), ⟨.ofNat 32 1⟩],
      Blob.decode (lossBlob key) = .ok (lossRequest key) := by
  have hall : ∀ key ∈ [XOnlyKey.mk (.zero 32), ⟨.ofNat 32 1⟩],
      (Blob.decode (lossBlob key)).toOption = some (lossRequest key) := by decide +kernel
  exact fun key hkey => toOption_eq_some_iff.mp (hall key hkey)

theorem step_load_loss {key : XOnlyKey} (h : Blob.decode (lossBlob key) = .ok (lossRequest key))
    (hs : s.policy = .standard) :
    s.step (.load (lossBlob key)) = (.loaded (.ok ()), lossAsked key s.pin) := by
  simp only [step, load_eq, h, lossAsked, ← hs]

theorem verify_loss {key : XOnlyKey} {pin : KeyPin} (h : pin.Admits (lossRequest key).keySets) :
    ∃ approval, approval.action.isSlashing ∧
      (lossAsked key pin).verify lossTransaction .unavailable = (.ok approval,
        ⟨.standard, lossRequest key, pin.hold (lossRequest key), .verified⟩) :=
  ⟨_, rfl, verify_of_maySlash rfl rfl rfl (maySlash_loss key h)⟩

theorem run_load_loss :
    (start .standard).run [.load (lossBlob ⟨.zero 32⟩)] = lossAsked ⟨.zero 32⟩ .free :=
  run_load (decode_lossBlob _ (by simp))

theorem step_verify_loss : ∃ approval, approval.action.isSlashing ∧
    (lossAsked ⟨.zero 32⟩ .free).step (.verify lossTransaction .unavailable) =
      (.verified (.ok approval), ⟨.standard, lossRequest ⟨.zero 32⟩,
        ⟨some (lossRequest ⟨.zero 32⟩).keySets⟩, .verified⟩) := by
  obtain ⟨approval, hslashing, hverify⟩ := @verify_loss ⟨.zero 32⟩ .free nofun
  refine ⟨approval, hslashing, ?_⟩
  rw [step_verify, hverify]
  rfl

theorem slashedAt_loss {key : XOnlyKey} (h : Blob.decode (lossBlob key) = .ok (lossRequest key)) :
    (start .standard).SlashedAt [.load (lossBlob ⟨.zero 32⟩)]
      (.verify lossTransaction .unavailable) [.load (lossBlob key)] := by
  obtain ⟨approval, hslashing, hstep⟩ := step_verify_loss
  constructor
  · rw [run_load_loss]
    exact ⟨approval, by rw [hstep], hslashing⟩
  · rw [run_concat, run_load_loss, hstep]
    refine ⟨?_, trivial⟩
    rintro (hfinish | hrejected)
    · cases hfinish
    · rw [step_load_loss h rfl] at hrejected
      cases hrejected

theorem run_lossCalls {key : XOnlyKey} (h : Blob.decode (lossBlob key) = .ok (lossRequest key)) :
    (start .standard).run (lossCalls key) =
      lossAsked key ⟨some (lossRequest ⟨.zero 32⟩).keySets⟩ := by
  obtain ⟨approval, _, hstep⟩ := step_verify_loss
  have hcalls : lossCalls key = ([.load (lossBlob ⟨.zero 32⟩)] ++
    [.verify lossTransaction .unavailable]) ++ [.load (lossBlob key)] := rfl
  rw [hcalls, run_concat, run_concat, run_load_loss, hstep, step_load_loss h rfl]

/-! ## Key sets and verifications -/

/-- Between an approved slashing and a later approval, with nothing wiped in between, the key sets
stay the same. And a verification fails for key sets only after a slashing was approved and nothing
wiped since, and only if the key sets differ from those of the first such slashing; or else this is
what the host answered when it was asked for the key at the path, and it is handed on. -/
theorem keySets_pinned (policy : Policy) (calls : List Call) (tx : Transaction)
    (host : HostKeys) :
    (∀ approval, (((start policy).run calls).verify tx host).1 = .ok approval →
      ∀ before slash later, calls = before ++ slash :: later →
        (start policy).SlashedAt before slash later →
        (((start policy).run calls).verify tx host).2.request.keySets =
          ((start policy).run (before ++ [slash])).request.keySets) ∧
    (∀ part, (((start policy).run calls).verify tx host).1 = .error (.keySet part) →
      (∃ path, ((start policy).run calls).request.derivationPath = some path ∧
        host path = .error (.keySet part)) ∨
      ∃ before slash later, calls = before ++ slash :: later ∧
        (start policy).SlashedAt before slash later ∧
        (∀ earlier call between, before = earlier ++ call :: between →
          ¬(start policy).SlashedAt earlier call between) ∧
        ((start policy).run calls).request.keySets ≠
          ((start policy).run (before ++ [slash])).request.keySets) := by
  constructor
  · rintro approval happroved before slash later rfl hslashed
    exact keySets_of_slashedAt hslashed happroved
  · intro part hrefused
    rcases slashedAt_of_keySet rfl hrefused with ⟨root, hroot⟩ | hcases
    · exact absurd hroot TapNode.outputKey_ne_keySet
    · exact hcases

theorem keySets_pinned_of_loss :
    let s := start .standard
    ((s.run (lossCalls ⟨.zero 32⟩)).verify lossTransaction .unavailable).2.request.keySets =
      (s.run [.load (lossBlob ⟨.zero 32⟩),
        .verify lossTransaction .unavailable]).request.keySets ∧
    ∃ before slash later, lossCalls ⟨.ofNat 32 1⟩ = before ++ slash :: later ∧
      s.SlashedAt before slash later ∧
      (s.run (lossCalls ⟨.ofNat 32 1⟩)).request.keySets ≠
        (s.run (before ++ [slash])).request.keySets := by
  intro s
  have hsame := decode_lossBlob ⟨.zero 32⟩ (by simp)
  have hother := decode_lossBlob ⟨.ofNat 32 1⟩ (by simp)
  constructor
  · obtain ⟨approval, _, hverify⟩ := @verify_loss ⟨.zero 32⟩
      ⟨some (lossRequest ⟨.zero 32⟩).keySets⟩ (by rintro _ ⟨⟩; rfl)
    refine (keySets_pinned .standard (lossCalls ⟨.zero 32⟩) lossTransaction .unavailable).1
      approval ?_ _ _ _ rfl (slashedAt_loss hsame)
    rw [run_lossCalls hsame, hverify]
  · have hcases := (keySets_pinned .standard (lossCalls ⟨.ofNat 32 1⟩) lossTransaction
      .unavailable).2 .covenantKeys (by rw [run_lossCalls hother]; rfl)
    obtain ⟨before, slash, later, hcalls, hslashed, _, hne⟩ :=
      hcases.resolve_left fun ⟨_, _, hhost⟩ => nomatch hhost
    exact ⟨before, slash, later, hcalls, hslashed, hne⟩

end Session

end CovenantStaking

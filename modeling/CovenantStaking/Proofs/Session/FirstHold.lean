import CovenantStaking.Proofs.Session.Approval
import Mathlib.Data.List.Induction

/-!
# What a pin holds

A pin holds the key sets of the first request that it was given since it was last freed. Requests
that it is given later are ignored, a check that passes leaves it alone, and one that fails frees
it.
-/

namespace CovenantStaking

variable {a b : KeySets} {part : KeySetPart}

/-! ## Differences -/

/-- The key sets differ in a part, and in none of those that are compared before it. -/
def KeySets.DiffersFirstIn (a b : KeySets) : KeySetPart → Prop
  | .finalityProviders => a.finalityProviders ≠ b.finalityProviders
  | .covenantKeys => a.finalityProviders = b.finalityProviders ∧ a.covenantKeys ≠ b.covenantKeys
  | .covenantQuorum => a.finalityProviders = b.finalityProviders ∧
      a.covenantKeys = b.covenantKeys ∧ a.covenantQuorum ≠ b.covenantQuorum

theorem KeySets.difference?_eq_some_iff :
    a.difference? b = some part ↔ a.DiffersFirstIn b part := by
  unfold difference?
  by_cases hproviders : a.finalityProviders = b.finalityProviders
  · by_cases hkeys : a.covenantKeys = b.covenantKeys <;>
      cases part <;> simp [DiffersFirstIn, hproviders, hkeys]
  · cases part <;> simp [DiffersFirstIn, hproviders]

theorem KeySets.DiffersFirstIn.ne (h : a.DiffersFirstIn b part) : a ≠ b := by
  rintro rfl
  cases part with
  | finalityProviders => exact h rfl
  | covenantKeys => exact h.2 rfl
  | covenantQuorum => exact h.2.2 rfl

theorem Request.keySets_eq_iff {r r' : Request} :
    r.keySets = r'.keySets ↔ r.finalityProviders = r'.finalityProviders ∧
      r.covenantKeys = r'.covenantKeys ∧ r.covenantQuorum = r'.covenantQuorum := by
  simp [keySets]

namespace KeyPin

variable {pin : KeyPin} {r : Request} {use : Use} {uses recent : List Use}

/-! ## One use -/

theorem admits_iff_of_held {sets other : KeySets} (h : pin.held = some sets) :
    pin.Admits other ↔ sets = other := by
  simp [Admits, h]

/-- A check passes and leaves the pin as it is, or fails for the first part that differs and frees
it. -/
theorem check_cases (pin : KeyPin) (r : Request) :
    (pin.Admits r.keySets ∧ pin.check r = (.ok (), pin)) ∨
      ∃ sets part, pin.held = some sets ∧ sets.DiffersFirstIn r.keySets part ∧
        pin.check r = (.error (.keySet part), free) := by
  cases hheld : pin.held with
  | none => exact .inl ⟨by simp [Admits, hheld], by simp only [check, accept, hheld]⟩
  | some sets =>
      cases hpart : sets.difference? r.keySets with
      | none =>
          have hsame : sets = r.keySets := KeySets.difference?_eq_none_iff.mp hpart
          exact .inl ⟨(admits_iff_of_held hheld).mpr hsame,
            by simp only [check, accept, hheld, hpart]⟩
      | some part =>
          exact .inr ⟨sets, part, rfl, KeySets.difference?_eq_some_iff.mp hpart,
            by simp only [check, accept, hheld, hpart]⟩

theorem check_eq_ok_iff : (pin.check r).1 = .ok () ↔ pin.Admits r.keySets := by
  rcases pin.check_cases r with ⟨hadmits, hcheck⟩ | ⟨sets, part, hheld, hpart, hcheck⟩
  · simp [hcheck, hadmits]
  · rw [hcheck]
    exact iff_of_false nofun fun hadmits => hpart.ne (hadmits sets hheld)

theorem check_eq_error {cause : Failure} (h : (pin.check r).1 = .error cause) :
    ∃ sets part, pin.held = some sets ∧ sets.DiffersFirstIn r.keySets part ∧
      cause = .keySet part ∧ (pin.check r).2 = free := by
  rcases pin.check_cases r with ⟨-, hcheck⟩ | ⟨sets, part, hheld, hpart, hcheck⟩
  · rw [hcheck] at h
    cases h
  · rw [hcheck] at h ⊢
    cases h
    exact ⟨sets, part, hheld, hpart, rfl, rfl⟩

/-- The use frees the pin: it releases it, or it is a check that fails. -/
def Frees (pin : KeyPin) (use : Use) : Prop :=
  use = .release ∨ ∃ cause, (pin.step use).1 = some (.error cause)

theorem not_frees_hold : ¬pin.Frees (.hold r) := by
  rintro (hrelease | ⟨cause, hcause⟩)
  · cases hrelease
  · cases hcause

theorem not_frees_check (h : pin.Admits r.keySets) : ¬pin.Frees (.check r) := by
  rintro (hrelease | ⟨cause, hcause⟩)
  · cases hrelease
  · cases (check_eq_ok_iff.mpr h).symm.trans (Option.some.inj hcause)

/-- The request that a use would have held. -/
def Use.held? : Use → Option Request
  | .hold r => some r
  | .check _ | .release => none

theorem Frees.step (h : pin.Frees use) : (pin.step use).2 = free := by
  rcases h with rfl | ⟨cause, hcause⟩
  · rfl
  · cases use with
    | hold r => cases hcause
    | check r =>
        obtain ⟨_, _, _, _, _, hfree⟩ := check_eq_error (Option.some.inj hcause)
        exact hfree
    | release => rfl

/-- What is held stays while nothing frees the pin, and a pin that holds nothing takes what it is
given. -/
theorem held_step (h : ¬pin.Frees use) :
    (pin.step use).2.held = pin.held.or (use.held?.map Request.keySets) := by
  cases use with
  | hold r =>
      cases hheld : pin.held with
      | none => simp [step, hold, Use.held?, hheld]
      | some sets => simp [step, hold, Use.held?, hheld]
  | check r =>
      rcases pin.check_cases r with ⟨-, hcheck⟩ | ⟨_, part, _, _, hcheck⟩
      · simp [step, hcheck, Use.held?]
      · exact absurd (.inr ⟨.keySet part, by simp only [step, hcheck]⟩) h
  | release => exact absurd (.inl rfl) h

/-! ## Runs -/

theorem run_append (pin : KeyPin) (before after : List Use) :
    pin.run (before ++ after) = (pin.run before).run after := by
  simp [run]

theorem run_concat (pin : KeyPin) (uses : List Use) (use : Use) :
    pin.run (uses ++ [use]) = ((pin.run uses).step use).2 :=
  pin.run_append uses [use]

/-- None of the uses frees the pin. -/
def Kept (pin : KeyPin) : List Use → Prop
  | [] => True
  | use :: uses => ¬pin.Frees use ∧ Kept (pin.step use).2 uses

theorem kept_concat_iff : pin.Kept (uses ++ [use]) ↔ pin.Kept uses ∧ ¬(pin.run uses).Frees use := by
  induction uses generalizing pin with
  | nil => simp [Kept, run]
  | cons first uses ih => simp [Kept, run, ih, and_assoc]

/-- The request that is held first. -/
def firstHeld? (uses : List Use) : Option Request :=
  uses.findSome? Use.held?

theorem isSome_firstHeld?_iff : (firstHeld? uses).isSome ↔ ∃ r, .hold r ∈ uses := by
  simp only [firstHeld?, List.isSome_findSome?, List.any_eq_true]
  constructor
  · rintro ⟨use, hmem, hheld⟩
    cases use with
    | hold r => exact ⟨r, hmem⟩
    | check r => cases hheld
    | release => cases hheld
  · rintro ⟨r, hmem⟩
    exact ⟨.hold r, hmem, rfl⟩

theorem Kept.held_run (h : pin.Kept uses) :
    (pin.run uses).held = pin.held.or ((firstHeld? uses).map Request.keySets) := by
  -- a hold counts only if the pin and the uses before it hold nothing: so does `Option.or`
  induction uses generalizing pin with
  | nil => simp [run, firstHeld?]
  | cons use uses ih =>
      obtain ⟨huse, hkept⟩ := h
      calc
        (pin.run (use :: uses)).held
          = (pin.step use).2.held.or ((firstHeld? uses).map Request.keySets) := ih hkept
        _ = pin.held.or
              ((use.held?.map Request.keySets).or ((firstHeld? uses).map Request.keySets)) := by
          rw [held_step huse, Option.or_assoc]
        _ = pin.held.or ((firstHeld? (use :: uses)).map Request.keySets) := by
          cases hfirst : use.held? <;> simp [firstHeld?, hfirst]

/-- The recent ones among the uses of a new pin are those after the last use that freed it, or all
of them if none did. -/
def SinceFreed (uses recent : List Use) : Prop :=
  ∃ past, uses = past ++ recent ∧
    (past = [] ∨ ∃ earlier use, past = earlier ++ [use] ∧ (free.run earlier).Frees use) ∧
    (free.run past).Kept recent

theorem exists_sinceFreed (uses : List Use) : ∃ recent, SinceFreed uses recent := by
  induction uses using List.reverseRecOn with
  | nil => exact ⟨[], [], rfl, .inl rfl, trivial⟩
  | append_singleton uses use ih =>
      by_cases hfrees : (free.run uses).Frees use
      · exact ⟨[], uses ++ [use], by simp, .inr ⟨uses, use, rfl, hfrees⟩, trivial⟩
      · obtain ⟨recent, past, rfl, hpast, hkept⟩ := ih
        rw [run_append] at hfrees
        exact ⟨recent ++ [use], past, by simp, hpast, kept_concat_iff.mpr ⟨hkept, hfrees⟩⟩

theorem SinceFreed.held_run (h : SinceFreed uses recent) :
    (free.run uses).held = (firstHeld? recent).map Request.keySets := by
  obtain ⟨past, rfl, hpast, hkept⟩ := h
  have hfree : free.run past = free := by
    rcases hpast with rfl | ⟨earlier, use, rfl, hfrees⟩
    · rfl
    · rw [run_concat, hfrees.step]
  rw [run_append, hkept.held_run, hfree]
  rfl

theorem SinceFreed.isPopulated_iff (h : SinceFreed uses recent) :
    (free.run uses).isPopulated ↔ ∃ r, .hold r ∈ recent := by
  rw [isPopulated, h.held_run, Option.isSome_map, isSome_firstHeld?_iff]

theorem SinceFreed.exists_firstHeld (h : SinceFreed uses recent)
    (hpopulated : (free.run uses).isPopulated) : ∃ first, firstHeld? recent = some first ∧
      (free.run uses).held = some first.keySets := by
  obtain ⟨sets, hheld⟩ := Option.isSome_iff_exists.mp hpopulated
  obtain ⟨first, hfirst, rfl⟩ := Option.map_eq_some_iff.mp (h.held_run.symm.trans hheld)
  exact ⟨first, hfirst, hheld⟩

/-- A new pin holds key sets, whatever its uses, exactly if some request was to be held since it was
last freed. It then admits the requests with the key sets of the first of these and no others: it
names the first part in which another one differs, and is freed. A pin that holds nothing admits
all. -/
theorem pinned_by_first_hold (uses : List Use) :
    let pin := free.run uses
    (∃ recent, SinceFreed uses recent) ∧
    ∀ recent, SinceFreed uses recent →
      (pin.isPopulated ↔ ∃ r, .hold r ∈ recent) ∧
      (pin.isPopulated → ∃ first, firstHeld? recent = some first ∧ ∀ r,
        ((pin.check r).1 = .ok () ↔ r.finalityProviders = first.finalityProviders ∧
          r.covenantKeys = first.covenantKeys ∧ r.covenantQuorum = first.covenantQuorum) ∧
        ∀ cause, (pin.check r).1 = .error cause → ¬(pin.check r).2.isPopulated ∧
          ∃ part, first.keySets.DiffersFirstIn r.keySets part ∧ cause = .keySet part ∧
            cause.message = "Key set mismatch: " ++ part.name ++ " changed since approval") ∧
      (¬pin.isPopulated → ∀ r, (pin.check r).1 = .ok ()) := by
  intro pin
  refine ⟨exists_sinceFreed uses, fun recent hrecent => ⟨hrecent.isPopulated_iff, ?_, ?_⟩⟩
  · intro hpopulated
    obtain ⟨first, hfirst, hheld⟩ := hrecent.exists_firstHeld hpopulated
    refine ⟨first, hfirst, fun r => ⟨?_, fun cause hcause => ?_⟩⟩
    · rw [check_eq_ok_iff, admits_iff_of_held hheld, eq_comm, Request.keySets_eq_iff]
    · obtain ⟨sets, part, hsets, hpart, rfl, hfree⟩ := check_eq_error hcause
      cases hheld.symm.trans hsets
      exact ⟨by simp [hfree, isPopulated, free], part, hpart, rfl, rfl⟩
  · intro hfree r
    have hnone : pin.held = none := by simpa [isPopulated] using hfree
    rw [check_eq_ok_iff]
    simp [Admits, hnone]

/-- A check without a list frees a pin that holds an empty one, and the next request is held. -/
theorem pinned_by_first_hold_after_empty_list :
    let listed : Request := { Request.empty with covenantKeys := some [] }
    let past : List Use := [.hold listed, .check .empty]
    let recent : List Use := [.check listed, .hold .empty, .hold listed, .check .empty]
    let pin := free.run (past ++ recent)
    (SinceFreed past [] ∧ ¬(free.run past).isPopulated ∧
      ((free.run past).check listed).1 = .ok ()) ∧
    SinceFreed (past ++ recent) recent ∧ pin.isPopulated ∧ (pin.check .empty).1 = .ok () ∧
      (pin.check listed).1 = .error (.keySet .covenantKeys) ∧
      ¬(pin.check listed).2.isPopulated := by
  intro listed past recent pin
  have hfreed : (free.run [.hold listed]).Frees (.check .empty) := .inr ⟨_, rfl⟩
  have hpast : SinceFreed past [] := ⟨past, rfl, .inr ⟨_, _, rfl, hfreed⟩, trivial⟩
  have hrecent : SinceFreed (past ++ recent) recent :=
    ⟨past, rfl, .inr ⟨_, _, rfl, hfreed⟩, not_frees_check nofun, not_frees_hold, not_frees_hold,
      not_frees_check (by rintro _ ⟨⟩; rfl), trivial⟩
  obtain ⟨hpopulated, -, hadmitted⟩ := (pinned_by_first_hold past).2 [] hpast
  have hfree : ¬(free.run past).isPopulated := by simp [hpopulated]
  obtain ⟨hholds, hchecked, -⟩ := (pinned_by_first_hold (past ++ recent)).2 recent hrecent
  have hheld : pin.isPopulated := hholds.mpr ⟨.empty, by simp [recent]⟩
  obtain ⟨first, hfirst, hchecks⟩ := hchecked hheld
  cases hfirst
  have hrefused : (pin.check listed).1 = .error (.keySet .covenantKeys) := rfl
  exact ⟨⟨hpast, hfree, hadmitted hfree listed⟩, hrecent, hheld,
    (hchecks .empty).1.mpr ⟨rfl, rfl, rfl⟩, hrefused, ((hchecks listed).2 _ hrefused).1⟩

end KeyPin

end CovenantStaking

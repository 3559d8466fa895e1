import CovenantStaking.Policy.Text
import CovenantStaking.Proofs.Json.Fields
import CovenantStaking.Proofs.Outcome

/-!
# Policies that are kept as text

A policy's text says all there is to the policy: it is taken for the policy that was written, unless
that one was not valid, and then it fails as the policy's own check does. No text at all is taken
for a policy that is not valid.
-/

namespace CovenantStaking

open Json

/-! ## Parts -/

theorem Network.ofJson?_toJson (network : Network) : ofJson? network.toJson = some network := by
  rw [toJson, ofJson?, Value.variant?_ofText]
  cases network with
  | mainnet | testnet | signet | regtest => rfl

theorem wordOfJson?_ofNat (word : UInt64) : wordOfJson? (.ofNat word.toNat) = some word := by
  rw [wordOfJson?, Value.natural?_ofNat word.toNat_lt]
  simp

namespace FeeBounds

theorem writable_toJson (bounds : FeeBounds) : bounds.toJson.Writable := by
  have hplain : ∀ name ∈ fieldNames, IsPlain name := by decide
  have hvalues : ∀ value ∈ [Value.ofNat bounds.min.toNat, .ofNat bounds.max.toNat],
      value.Writable := by
    simp [Value.Writable.ofNat]
  exact Value.writable_ofFields rfl hplain hvalues

theorem ofJson?_toJson (bounds : FeeBounds) : ofJson? bounds.toJson = some bounds := by
  have hfields : bounds.toJson.fields? fieldNames =
      some [some (.ofNat bounds.min.toNat), some (.ofNat bounds.max.toNat)] :=
    Value.fields?_ofFields rfl (by decide) (by decide)
  rw [ofJson?, hfields]
  simp [wordOfJson?_ofNat]

theorem optionOfJson?_toJson (bounds : FeeBounds) :
    optionOfJson? bounds.toJson = some (some bounds) :=
  congrArg (some <$> ·) bounds.ofJson?_toJson

end FeeBounds

namespace Policy

/-! ## The whole -/

theorem writable_toJson (policy : Policy) : policy.toJson.Writable := by
  have hplain : ∀ name ∈ fieldNames, IsPlain name := by decide
  refine Value.writable_ofFields rfl hplain ?_
  simp only [List.map_cons, List.map_nil, List.forall_mem_cons]
  refine ⟨.text _, ?_, .ofNat _, nofun⟩
  split
  · exact FeeBounds.writable_toJson _
  · exact .null

theorem ofJson?_toJson (policy : Policy) : ofJson? policy.toJson = some policy := by
  obtain ⟨network, feeBounds, highFee⟩ := policy
  cases feeBounds with
  | none =>
      have hfields : (toJson ⟨network, none, highFee⟩).fields? fieldNames =
          some [some network.toJson, some .null, some (.ofNat highFee.toNat)] :=
        Value.fields?_ofFields rfl (by decide) (by decide)
      rw [ofJson?, hfields]
      simp [fieldOr, FeeBounds.optionOfJson?, Network.ofJson?_toJson, wordOfJson?_ofNat]
  | some bounds =>
      have hfields : (toJson ⟨network, some bounds, highFee⟩).fields? fieldNames =
          some [some network.toJson, some bounds.toJson, some (.ofNat highFee.toNat)] :=
        Value.fields?_ofFields rfl (by decide) (by decide)
      rw [ofJson?, hfields]
      simp [fieldOr, FeeBounds.optionOfJson?_toJson, Network.ofJson?_toJson, wordOfJson?_ofNat]

theorem read?_text (policy : Policy) : Json.read? ofJson? policy.text = some policy := by
  rw [Json.read?, text, Value.ofJson?_pretty policy.writable_toJson]
  exact policy.ofJson?_toJson

/-! ## Validity -/

theorem validate_eq_error_iff {policy : Policy} {cause : Failure} :
    policy.validate = .error cause ↔ ∃ bounds, policy.feeBounds = some bounds ∧
      bounds.max < bounds.min ∧ cause = .invertedBounds bounds.min bounds.max := by
  unfold validate
  split
  · rename_i bounds hbounds
    rw [ensure_eq_error_iff, UInt64.not_le, eq_comm (b := cause)]
    simp [hbounds]
  · rename_i hbounds
    simp [hbounds]

theorem ofText_of_read? {text : String} {policy : Policy}
    (h : Json.read? ofJson? text = some policy) :
    ofText text = policy.validate >>= fun _ => pure policy := by
  rw [ofText, h]

theorem validate_of_ofText_eq_ok {text : String} {policy : Policy} (h : ofText text = .ok policy) :
    policy.validate = .ok () := by
  cases hread : Json.read? ofJson? text with
  | none =>
      rw [ofText, hread] at h
      cases h
  | some read =>
      rw [ofText_of_read? hread, bind_eq_ok_iff] at h
      obtain ⟨_, hvalid, hpure⟩ := h
      obtain rfl := pure_eq_ok_iff.mp hpure
      exact hvalid

theorem ofText_text_eq_ok_iff (policy : Policy) :
    ofText policy.text = .ok policy ↔ policy.validate = .ok () := by
  rw [ofText_of_read? policy.read?_text]
  cases policy.validate with
  | error cause => simp
  | ok => simp

theorem ofText_text_eq_error {policy : Policy} {cause : Failure}
    (h : policy.validate = .error cause) : ofText policy.text = .error cause := by
  rw [ofText_of_read? policy.read?_text, h]
  rfl

/-- A policy survives its text if and only if its bounds are not the wrong way round; otherwise the
text fails as the policy does. No text holds a policy that fails. -/
theorem survives_text_iff_valid :
    (∀ policy : Policy,
      (ofText policy.text = .ok policy ↔ policy.validate = .ok ()) ∧
      ∀ cause, policy.validate = .error cause →
        ofText policy.text = .error cause ∧
        ∃ bounds, policy.feeBounds = some bounds ∧ bounds.max < bounds.min ∧
          cause = .invertedBounds bounds.min bounds.max) ∧
    ∀ text policy, ofText text = .ok policy → policy.validate = .ok () := by
  refine ⟨fun policy => ⟨ofText_text_eq_ok_iff policy, fun cause hinvalid => ?_⟩, ?_⟩
  · exact ⟨ofText_text_eq_error hinvalid, validate_eq_error_iff.mp hinvalid⟩
  · exact fun text policy => validate_of_ofText_eq_ok

/-- Bounds from the largest word down to zero are written but not read, and a text may leave all but
the network to the standard. -/
theorem survives_text_iff_valid_at_extremes :
    ofText (text ⟨.regtest, some ⟨0xffffffffffffffff, 0⟩, 0⟩) =
        .error (.invertedBounds 0xffffffffffffffff 0) ∧
      ofText "\x7b\"network\": \"testnet\"\x7d" = .ok ⟨.testnet, some .standard, 9000⟩ ∧
      validate ⟨.testnet, some .standard, 9000⟩ = .ok () := by
  have hread : ofText "\x7b\"network\": \"testnet\"\x7d" = .ok ⟨.testnet, some .standard, 9000⟩ :=
    toOption_eq_some_iff.mp (by decide +kernel)
  have hvalid := survives_text_iff_valid.2 _ _ hread
  have hwritten := (survives_text_iff_valid.1 ⟨.regtest, some ⟨0xffffffffffffffff, 0⟩, 0⟩).2 _ rfl
  exact ⟨hwritten.1, hread, hvalid⟩

end Policy

end CovenantStaking

import CovenantStaking.Proofs.Outcome
import CovenantStaking.Transaction
import Mathlib.Algebra.Ring.Nat

/-!
# Totals and fees

The fee of a transaction is the difference of the true sums of its amounts, and there is one exactly
when both sums fit a word and no more is paid out than comes in. Where there is none, the failure
tells which of these is wrong.
-/

namespace CovenantStaking

/-! ## Sums of words -/

theorem checkedAdd_of_lt {overflow : Failure} {a b : UInt64} (h : a.toNat + b.toNat < 2 ^ 64) :
    checkedAdd overflow a b = .ok (a + b) :=
  if_pos h

theorem checkedAdd_of_le {overflow : Failure} {a b : UInt64} (h : 2 ^ 64 ≤ a.toNat + b.toNat) :
    checkedAdd overflow a b = .error overflow :=
  if_neg (Nat.not_lt.mpr h)

theorem foldlM_checkedAdd_eq_ok_iff {overflow : Failure} {acc total : UInt64}
    {amounts : List UInt64} : amounts.foldlM (checkedAdd overflow) acc = .ok total ↔
      acc.toNat + (amounts.map UInt64.toNat).sum = total.toNat := by
  induction amounts generalizing acc with
  | nil => simp [pure, Except.pure, UInt64.toNat_inj]
  | cons amount amounts ih =>
      rw [List.foldlM_cons, List.map_cons, List.sum_cons, ← Nat.add_assoc, bind_eq_ok_iff]
      rcases Nat.lt_or_ge (acc.toNat + amount.toNat) (2 ^ 64) with hfits | hover
      · simp only [checkedAdd_of_lt hfits, Except.ok.injEq, exists_eq_left', ih,
          UInt64.toNat_add, Nat.mod_eq_of_lt hfits]
      · have htotal := total.toNat_lt
        simp only [checkedAdd_of_le hover, reduceCtorEq, false_and, exists_false, false_iff]
        omega

/-- A sum fails at some amount exactly when the true sum does not fit a word. -/
theorem foldlM_checkedAdd_eq_error_iff {overflow cause : Failure} {acc : UInt64}
    {amounts : List UInt64} : amounts.foldlM (checkedAdd overflow) acc = .error cause ↔
      2 ^ 64 ≤ acc.toNat + (amounts.map UInt64.toNat).sum ∧ overflow = cause := by
  induction amounts generalizing acc with
  | nil =>
      have hacc := acc.toNat_lt
      simp only [List.foldlM_nil, pure_ne_error, List.map_nil, List.sum_nil, false_iff, not_and]
      omega
  | cons amount amounts ih =>
      rw [List.foldlM_cons, List.map_cons, List.sum_cons, ← Nat.add_assoc, bind_eq_error_iff]
      rcases Nat.lt_or_ge (acc.toNat + amount.toNat) (2 ^ 64) with hfits | hover
      · simp only [checkedAdd_of_lt hfits, reduceCtorEq, Except.ok.injEq, exists_eq_left',
          false_or, ih, UInt64.toNat_add, Nat.mod_eq_of_lt hfits]
      · -- what has been added up only grows
        have hgrows : 2 ^ 64 ≤ acc.toNat + amount.toNat + (amounts.map UInt64.toNat).sum := by omega
        simp only [checkedAdd_of_le hover, Except.error.injEq, reduceCtorEq, false_and,
          exists_false, or_false, hgrows, true_and]

/-- Where every place below the count holds its amount, looking the amounts up one after the other
adds up the same list. -/
theorem checkedTotal_eq_foldlM {overflow : Failure} {amountAt : Nat → Except Failure UInt64}
    (amounts : List UInt64)
    (h : ∀ (index : Nat) (hlt : index < amounts.length), amountAt index = .ok amounts[index]) :
    checkedTotal overflow amountAt amounts.length = amounts.foldlM (checkedAdd overflow) 0 := by
  -- the induction is on the amounts that are left, looked up from `start` on
  suffices hfrom : ∀ (rest : List UInt64) (start : Nat) (acc : UInt64),
      (∀ (index : Nat) (hlt : index < rest.length), amountAt (start + index) = .ok rest[index]) →
      (List.range' start rest.length).foldlM
        (fun total index => amountAt index >>= checkedAdd overflow total) acc =
        rest.foldlM (checkedAdd overflow) acc by
    rw [checkedTotal, List.range_eq_range']
    exact hfrom amounts 0 0 (by simpa using h)
  intro rest
  induction rest with
  | nil => exact fun _ _ _ => rfl
  | cons amount rest ih =>
      intro start acc hrest
      have hhead : amountAt start = .ok amount := hrest 0 (Nat.zero_lt_succ _)
      have htail : ∀ (index : Nat) (hlt : index < rest.length),
          amountAt (start + 1 + index) = .ok rest[index] := fun index hlt => by
        simpa [Nat.add_assoc, Nat.add_comm 1] using hrest (index + 1) (Nat.succ_lt_succ hlt)
      rw [List.length_cons, List.range'_succ, List.foldlM_cons, List.foldlM_cons, hhead]
      exact bind_congr fun total => ih (start + 1) total htail

namespace Transaction

variable {tx : Transaction}

def inputSum (tx : Transaction) : Nat :=
  (tx.inputs.map fun input => input.amount.toNat).sum

def outputSum (tx : Transaction) : Nat :=
  (tx.outputs.map fun output => output.amount.toNat).sum

/-- Both sums fit a word, and the fee is what the outputs leave of the inputs. -/
structure Balances (tx : Transaction) (fee : UInt64) : Prop where
  inputs_lt : tx.inputSum < 2 ^ 64
  outputs_lt : tx.outputSum < 2 ^ 64
  outputs_add_fee : tx.outputSum + fee.toNat = tx.inputSum

/-- Below the number of inputs every place holds one. -/
theorem input_of_lt {index : Nat} (h : index < tx.inputs.length) :
    tx.input index = .ok tx.inputs[index] := by
  rw [input, List.getElem?_eq_getElem h]

theorem output_of_lt {index : Nat} (h : index < tx.outputs.length) :
    tx.output index = .ok tx.outputs[index] := by
  rw [output, List.getElem?_eq_getElem h]

theorem inputTotal_eq_foldlM (tx : Transaction) : tx.inputTotal =
    (tx.inputs.map Input.amount).foldlM (checkedAdd (.structural .inputsOverflow)) 0 := by
  rw [← checkedTotal_eq_foldlM, inputTotal, List.length_map]
  intro index hlt
  rw [List.length_map] at hlt
  rw [input_of_lt hlt, List.getElem_map]
  rfl

theorem outputTotal_eq_foldlM (tx : Transaction) : tx.outputTotal =
    (tx.outputs.map Output.amount).foldlM (checkedAdd (.structural .outputsOverflow)) 0 := by
  rw [← checkedTotal_eq_foldlM, outputTotal, List.length_map]
  intro index hlt
  rw [List.length_map] at hlt
  rw [output_of_lt hlt, List.getElem_map]
  rfl

theorem inputTotal_eq_ok_iff {total : UInt64} :
    tx.inputTotal = .ok total ↔ tx.inputSum = total.toNat := by
  rw [inputTotal_eq_foldlM, foldlM_checkedAdd_eq_ok_iff, List.map_map, UInt64.toNat_zero,
    Nat.zero_add]
  rfl

theorem outputTotal_eq_ok_iff {total : UInt64} :
    tx.outputTotal = .ok total ↔ tx.outputSum = total.toNat := by
  rw [outputTotal_eq_foldlM, foldlM_checkedAdd_eq_ok_iff, List.map_map, UInt64.toNat_zero,
    Nat.zero_add]
  rfl

theorem fee_eq_ok_iff {fee : UInt64} : tx.fee = .ok fee ↔ tx.Balances fee := by
  simp only [Transaction.fee, bind_eq_ok_iff, inputTotal_eq_ok_iff, outputTotal_eq_ok_iff,
    ensure_eq_ok_iff, pure_eq_ok_iff, exists_const, UInt64.le_iff_toNat_le]
  constructor
  · rintro ⟨inputs, hin, outputs, hout, hle, rfl⟩
    have hsub : (inputs - outputs).toNat = inputs.toNat - outputs.toNat :=
      UInt64.toNat_sub_of_le _ _ (UInt64.le_iff_toNat_le.mpr hle)
    exact ⟨hin ▸ inputs.toNat_lt, hout ▸ outputs.toNat_lt, by omega⟩
  · rintro ⟨hin, hout, hfee⟩
    have hinputs := UInt64.toNat_ofNat_of_lt' hin
    have houtputs := UInt64.toNat_ofNat_of_lt' hout
    have hle : (UInt64.ofNat tx.outputSum).toNat ≤ (UInt64.ofNat tx.inputSum).toNat := by omega
    refine ⟨_, hinputs.symm, _, houtputs.symm, hle, ?_⟩
    rw [← UInt64.toNat_inj, UInt64.toNat_sub_of_le _ _ (UInt64.le_iff_toNat_le.mpr hle)]
    omega

theorem Balances.fee_unique {fee fee' : UInt64} (h : tx.Balances fee) (h' : tx.Balances fee') :
    fee = fee' :=
  Except.ok.inj ((fee_eq_ok_iff.mpr h).symm.trans (fee_eq_ok_iff.mpr h'))

/-! ## Failure -/

theorem inputTotal_eq_error_iff {cause : Failure} : tx.inputTotal = .error cause ↔
    2 ^ 64 ≤ tx.inputSum ∧ .structural .inputsOverflow = cause := by
  rw [inputTotal_eq_foldlM, foldlM_checkedAdd_eq_error_iff, List.map_map, UInt64.toNat_zero,
    Nat.zero_add]
  rfl

theorem outputTotal_eq_error_iff {cause : Failure} : tx.outputTotal = .error cause ↔
    2 ^ 64 ≤ tx.outputSum ∧ .structural .outputsOverflow = cause := by
  rw [outputTotal_eq_foldlM, foldlM_checkedAdd_eq_error_iff, List.map_map, UInt64.toNat_zero,
    Nat.zero_add]
  rfl

/-- No total ends at a place that holds nothing. -/
theorem totals_find_every_amount (tx : Transaction) (index : Nat) :
    tx.inputTotal ≠ .error (.structural (.noInput index)) ∧
      tx.outputTotal ≠ .error (.structural (.noOutput index)) := by
  simp [inputTotal_eq_error_iff, outputTotal_eq_error_iff]

/-- Why a transaction has no fee; the inputs are added up first. -/
inductive Unbalanced (tx : Transaction) : Failure → Prop
  | inputs (hin : 2 ^ 64 ≤ tx.inputSum) : Unbalanced tx (.structural .inputsOverflow)
  | outputs (hin : tx.inputSum < 2 ^ 64) (hout : 2 ^ 64 ≤ tx.outputSum) :
      Unbalanced tx (.structural .outputsOverflow)
  | overspent (hin : tx.inputSum < 2 ^ 64) (hout : tx.outputSum < 2 ^ 64)
      (hlt : tx.inputSum < tx.outputSum) :
      Unbalanced tx (.fee (.overspent (.ofNat tx.outputSum) (.ofNat tx.inputSum)))

theorem fee_eq_error_iff {cause : Failure} : tx.fee = .error cause ↔ tx.Unbalanced cause := by
  simp only [Transaction.fee, bind_eq_error_iff, inputTotal_eq_error_iff, inputTotal_eq_ok_iff,
    outputTotal_eq_error_iff, outputTotal_eq_ok_iff, ensure_eq_error_iff, pure_ne_error, and_false,
    exists_false, or_false, UInt64.le_iff_toNat_le, Nat.not_le]
  constructor
  · rintro (⟨hin, rfl⟩ | ⟨inputs, hin, ⟨hout, rfl⟩ | ⟨outputs, hout, hlt, rfl⟩⟩)
    · exact .inputs hin
    · exact .outputs (hin ▸ inputs.toNat_lt) hout
    · have h := Unbalanced.overspent (hin ▸ inputs.toNat_lt) (hout ▸ outputs.toNat_lt)
        (hin ▸ hout ▸ hlt)
      rwa [hin, hout, UInt64.ofNat_toNat, UInt64.ofNat_toNat] at h
  · rintro (hin | ⟨hin, hout⟩ | ⟨hin, hout, hlt⟩)
    · exact .inl ⟨hin, rfl⟩
    · exact .inr ⟨_, (UInt64.toNat_ofNat_of_lt' hin).symm, .inl ⟨hout, rfl⟩⟩
    · have hinputs := UInt64.toNat_ofNat_of_lt' hin
      have houtputs := UInt64.toNat_ofNat_of_lt' hout
      exact .inr ⟨_, hinputs.symm, .inr ⟨_, houtputs.symm, by rwa [hinputs, houtputs], rfl⟩⟩

theorem balances_iff {fee : UInt64} : tx.Balances fee ↔
    tx.inputSum < 2 ^ 64 ∧ tx.outputSum < 2 ^ 64 ∧ tx.outputSum ≤ tx.inputSum ∧
      fee.toNat = tx.inputSum - tx.outputSum := by
  constructor
  · rintro ⟨hin, hout, hfee⟩
    exact ⟨hin, hout, by omega, by omega⟩
  · rintro ⟨hin, hout, hle, hfee⟩
    exact ⟨hin, hout, by omega⟩

theorem unbalanced_structural_iff {fault : StructureFault} : tx.Unbalanced (.structural fault) ↔
    2 ^ 64 ≤ tx.inputSum ∧ fault = .inputsOverflow ∨
      tx.inputSum < 2 ^ 64 ∧ 2 ^ 64 ≤ tx.outputSum ∧ fault = .outputsOverflow := by
  constructor
  · intro h
    cases h with
    | inputs hin => exact .inl ⟨hin, rfl⟩
    | outputs hin hout => exact .inr ⟨hin, hout, rfl⟩
  · rintro (⟨hin, rfl⟩ | ⟨hin, hout, rfl⟩)
    · exact .inputs hin
    · exact .outputs hin hout

theorem unbalanced_fee_iff {fault : FeeFault} : tx.Unbalanced (.fee fault) ↔
    tx.inputSum < 2 ^ 64 ∧ tx.outputSum < 2 ^ 64 ∧ tx.inputSum < tx.outputSum ∧
      fault = .overspent (.ofNat tx.outputSum) (.ofNat tx.inputSum) := by
  constructor
  · intro h
    cases h with
    | overspent hin hout hlt => exact ⟨hin, hout, hlt, rfl⟩
  · rintro ⟨hin, hout, hlt, rfl⟩
    exact .overspent hin hout hlt

/-- The fee is the difference of the sums, taken as true numbers. These alone decide whether there
is a fee and, if not, what is wrong. -/
theorem fee_outcome (tx : Transaction) :
    (∀ fee, tx.fee = .ok fee ↔ tx.inputSum < 2 ^ 64 ∧ tx.outputSum < 2 ^ 64 ∧
      tx.outputSum ≤ tx.inputSum ∧ fee.toNat = tx.inputSum - tx.outputSum) ∧
    (∀ fault, tx.fee = .error (.structural fault) ↔
      2 ^ 64 ≤ tx.inputSum ∧ fault = .inputsOverflow ∨
        tx.inputSum < 2 ^ 64 ∧ 2 ^ 64 ≤ tx.outputSum ∧ fault = .outputsOverflow) ∧
    (∀ fault, tx.fee = .error (.fee fault) ↔
      tx.inputSum < 2 ^ 64 ∧ tx.outputSum < 2 ^ 64 ∧ tx.inputSum < tx.outputSum ∧
        fault = .overspent (.ofNat tx.outputSum) (.ofNat tx.inputSum)) :=
  ⟨fun _ => fee_eq_ok_iff.trans balances_iff,
    fun _ => fee_eq_error_iff.trans unbalanced_structural_iff,
    fun _ => fee_eq_error_iff.trans unbalanced_fee_iff⟩

end Transaction

end CovenantStaking

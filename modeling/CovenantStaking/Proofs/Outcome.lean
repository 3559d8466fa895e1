import CovenantStaking.Failure

/-!
# Outcomes of steps that may fail

When steps that follow each other succeed, and with which of their failures they fail.
-/

namespace CovenantStaking

variable {ε α β : Type}

/-! ## Success -/

@[simp] theorem bind_eq_ok_iff {x : Except ε α} {f : α → Except ε β} {b : β} :
    (x >>= f) = .ok b ↔ ∃ a, x = .ok a ∧ f a = .ok b := by
  cases x with
  | error cause => simp [bind, Except.bind]
  | ok a => simp [bind, Except.bind]

@[simp] theorem pure_eq_ok_iff {a b : α} : (pure a : Except ε α) = .ok b ↔ a = b := by
  simp [pure, Except.pure]

@[simp] theorem map_eq_ok_iff {x : Except ε α} {f : α → β} {b : β} :
    f <$> x = .ok b ↔ ∃ a, x = .ok a ∧ f a = b := by
  cases x with
  | error cause => simp [Functor.map, Except.map]
  | ok a => simp [Functor.map, Except.map]

/-! ## Failure -/

@[simp] theorem bind_eq_error_iff {x : Except ε α} {f : α → Except ε β} {cause : ε} :
    (x >>= f) = .error cause ↔ x = .error cause ∨ ∃ a, x = .ok a ∧ f a = .error cause := by
  cases x with
  | error cause => simp [bind, Except.bind]
  | ok a => simp [bind, Except.bind]

@[simp] theorem pure_ne_error {a : α} {cause : ε} : (pure a : Except ε α) ≠ .error cause :=
  nofun

@[simp] theorem map_eq_error_iff {x : Except ε α} {f : α → β} {cause : ε} :
    f <$> x = .error cause ↔ x = .error cause := by
  cases x with
  | error cause => simp [Functor.map, Except.map]
  | ok a => simp [Functor.map, Except.map]

@[simp] theorem ensure_eq_error_iff {c : Prop} [Decidable c] {cause cause' : Failure} :
    ensure c cause = .error cause' ↔ ¬c ∧ cause = cause' := by
  unfold ensure
  split
  · simp [*]
  · simp [*]

@[simp] theorem present_eq_error_iff {value : Option α} {field : Field} {cause : Failure} :
    present value field = .error cause ↔ value = none ∧ .missing field = cause := by
  cases value with
  | none => simp [present]
  | some a => simp [present]

theorem eq_ok_iff_ne_error {x : Except ε Unit} {u : Unit} :
    x = .ok u ↔ ∀ cause, x ≠ .error cause := by
  cases x with
  | error cause => simp
  | ok u => simp

/-! ## Comparison -/

/-- The rest of two computations has to be the same only for what the first step can give. -/
theorem bind_congr_of_ok {x : Except ε α} {f g : α → Except ε β}
    (h : ∀ a, x = .ok a → f a = g a) : (x >>= f) = (x >>= g) := by
  cases x with
  | error cause => rfl
  | ok a => exact h a rfl

/-! ## Evaluation -/

theorem toOption_eq_some_iff {x : Except ε α} {a : α} : x.toOption = some a ↔ x = .ok a := by
  cases x with
  | error cause => simp [Except.toOption]
  | ok b => simp [Except.toOption]

end CovenantStaking

import CovenantStaking.Proofs.KeyPath.Bytes
import Mathlib.Data.List.Basic

/-!
# The components that a written path tells

A component is written as a slash, digits, and perhaps a mark. The digits end where the mark, the
next slash or nothing stands, so the text tells where each component ends and what it is.
-/

namespace CovenantStaking

/-- A run of what satisfies `p` can be told from what follows, if that does not continue it. -/
theorem append_inj_of_head {α : Type} {p : α → Bool} {run run' rest rest' : List α}
    (hrun : ∀ a ∈ run, p a) (hrun' : ∀ a ∈ run', p a) (hrest : ∀ a ∈ rest.head?, ¬p a)
    (hrest' : ∀ a ∈ rest'.head?, ¬p a) (h : run ++ rest = run' ++ rest') :
    run = run' ∧ rest = rest' := by
  have htake {run rest : List α} (hrun : ∀ a ∈ run, p a) (hrest : ∀ a ∈ rest.head?, ¬p a) :
      (run ++ rest).takeWhile p = run := by
    rw [List.takeWhile_append_of_pos hrun]
    cases rest with
    | nil => rw [List.takeWhile_nil, List.append_nil]
    | cons a rest => rw [List.takeWhile_cons_of_neg (hrest a rfl), List.append_nil]
  have heq := htake hrun hrest
  rw [h, htake hrun' hrest'] at heq
  subst heq
  exact ⟨rfl, List.append_cancel_left h⟩

namespace KeyPath

/-! ## One component -/

theorem toDigits_injective : Function.Injective (Nat.toDigits 10) := by
  intro m n h
  have hvalue := congrArg (fun digits => Nat.ofDigitChars 10 digits 0) h
  simpa only [Nat.ofDigitChars_ten_toDigits] using hvalue

theorem eq_of_index_of_isHardened {a b : UInt32} (hindex : index a = index b)
    (hhardened : isHardened a = isHardened b) : a = b := by
  have ha := a.toNat_lt
  have hb := b.toNat_lt
  simp only [index] at hindex
  simp only [isHardened, decide_eq_decide] at hhardened
  exact UInt32.toNat_inj.mp (by omega)

def mark (component : UInt32) : List Char :=
  if isHardened component then ['\''] else []

/-- Nothing, or one more component, follows. -/
def Continues (rest : List Char) : Prop :=
  ∀ c ∈ rest.head?, c = '/'

theorem componentText_append (component : UInt32) (rest : List Char) :
    componentText component ++ rest =
      '/' :: (Nat.toDigits 10 (index component) ++ (mark component ++ rest)) := by
  simp [componentText, mark]

section

variable {a b : UInt32} {rest rest' : List Char}

theorem Continues.not_isDigit (h : Continues rest) (component : UInt32) :
    ∀ c ∈ (mark component ++ rest).head?, ¬c.isDigit := by
  intro c hc
  unfold mark at hc
  split at hc
  · cases hc
    decide
  · rw [h c hc]
    decide

theorem Continues.mark_append_inj (hrest : Continues rest) (hrest' : Continues rest')
    (h : mark a ++ rest = mark b ++ rest') : isHardened a = isHardened b ∧ rest = rest' := by
  have hne {rest tail : List Char} (htail : Continues tail) : '\'' :: rest ≠ tail := by
    rintro rfl
    have hslash : '\'' = '/' := htail _ rfl
    exact absurd hslash (by decide)
  unfold mark at h
  split at h
  · split at h
    · rename_i ha hb
      exact ⟨ha.trans hb.symm, (List.cons.inj h).2⟩
    · exact absurd h (hne hrest')
  · split at h
    · exact absurd h.symm (hne hrest)
    · rename_i ha hb
      exact ⟨by rw [Bool.eq_false_iff.mpr ha, Bool.eq_false_iff.mpr hb], h⟩

/-- A component can be told from what follows it. -/
theorem Continues.componentText_append_inj (hrest : Continues rest) (hrest' : Continues rest')
    (h : componentText a ++ rest = componentText b ++ rest') : a = b ∧ rest = rest' := by
  have hdigit {n : Nat} : ∀ c ∈ Nat.toDigits 10 n, c.isDigit := fun _ hc =>
    Nat.isDigit_of_mem_toDigits (by decide) (by decide) hc
  rw [componentText_append, componentText_append] at h
  obtain ⟨hdigits, htail⟩ := append_inj_of_head hdigit hdigit (hrest.not_isDigit a)
    (hrest'.not_isDigit b) (List.cons.inj h).2
  obtain ⟨hhardened, hrests⟩ := hrest.mark_append_inj hrest' htail
  exact ⟨eq_of_index_of_isHardened (toDigits_injective hdigits) hhardened, hrests⟩

end

/-! ## Paths -/

theorem continues_flatMap (components : List UInt32) :
    Continues (components.flatMap componentText) := by
  cases components with
  | nil => exact nofun
  | cons component components =>
      intro c hc
      cases hc
      rfl

theorem flatMap_componentText_inj {components components' : List UInt32}
    (h : components.flatMap componentText = components'.flatMap componentText) :
    components = components' := by
  induction components generalizing components' with
  | nil =>
      cases components' with
      | nil => rfl
      | cons component' components' => cases h
  | cons component components ih =>
      cases components' with
      | nil => cases h
      | cons component' components' =>
          rw [List.flatMap_cons, List.flatMap_cons] at h
          obtain ⟨rfl, hrest⟩ := (continues_flatMap components).componentText_append_inj
            (continues_flatMap components') h
          rw [ih hrest]

theorem text_inj {p q : KeyPath} : p.text = q.text ↔ p.components = q.components := by
  constructor
  · intro h
    exact flatMap_componentText_inj (List.cons.inj (String.ofList_injective h)).2
  · intro h
    rw [text, text, h]

theorem components_eq_iff {p q : KeyPath} (hp : p.depth.toNat ≤ maxDepth)
    (hq : q.depth.toNat ≤ maxDepth) :
    p.components = q.components ↔
      p.depth = q.depth ∧ ∀ i, i < p.depth.toNat → p.slots[i]? = q.slots[i]? := by
  constructor
  · intro h
    -- a depth past the stored words would not show in the number of components
    have hlength := congrArg List.length h
    rw [length_components, length_components, Nat.min_eq_left hp, Nat.min_eq_left hq] at hlength
    refine ⟨UInt8.toNat_inj.mp hlength, fun i hi => ?_⟩
    have hword := congrArg (fun words => words[i]?) h
    simpa only [components, List.getElem?_take_of_lt hi,
      List.getElem?_take_of_lt (hlength ▸ hi)] using hword
  · rintro ⟨hdepth, hwords⟩
    apply List.ext_getElem?
    intro i
    rw [components, components, ← hdepth, List.getElem?_take, List.getElem?_take]
    split
    · exact hwords i ‹_›
    · rfl

/-- Paths are written alike exactly when their components are the same: the depths agree, and so do
the words that are in use. -/
theorem text_eq_iff {p q : KeyPath} (hp : p.depth.toNat ≤ maxDepth)
    (hq : q.depth.toNat ≤ maxDepth) :
    (p.text = q.text ↔ p.components = q.components) ∧
    (p.text = q.text ↔
      p.depth = q.depth ∧ ∀ i, i < p.depth.toNat → p.slots[i]? = q.slots[i]?) :=
  ⟨text_inj, text_inj.trans (components_eq_iff hp hq)⟩

/-- A word that is not in use does not show. -/
theorem text_eq_iff_of_stray_word :
    let p := taproot 1 0 0 3
    let q : KeyPath := ⟨p.slots.set 9 7, 5, rfl⟩
    p.depth.toNat ≤ maxDepth ∧ q.depth.toNat ≤ maxDepth ∧ p ≠ q ∧
      p.components = q.components ∧ p.text = q.text := by
  intro p q
  have hp : p.depth.toNat ≤ maxDepth := by decide
  have hq : q.depth.toNat ≤ maxDepth := by decide
  have htext : p.text = q.text := (text_eq_iff hp hq).2.mpr ⟨rfl, by decide⟩
  exact ⟨hp, hq, by decide, (text_eq_iff hp hq).1.mp htext, htext⟩

end KeyPath

end CovenantStaking

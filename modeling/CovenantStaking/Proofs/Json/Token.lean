import CovenantStaking.Json.Reading
import CovenantStaking.Json.Writing
import CovenantStaking.Proofs.Json.Scalar

/-!
# The tokens of what is written

A scan takes a text piece by piece: a blank is passed over, and every other piece that is written is
one token, whatever comes after it.
-/

namespace CovenantStaking.Json.Token

/-! ## Words -/

/-- The characters at which a word ends. -/
def endsWord (c : Char) : Bool :=
  c = '"' || isBlank c || (punctuation? c).isSome

theorem mem_of_endsWord {c : Char} (h : endsWord c) :
    c ∈ ['"', ' ', '\t', '\n', '\r', '[', ']', '\x7b', '\x7d', ',', ':'] := by
  simp only [endsWord, isBlank, punctuation?, Bool.or_eq_true, decide_eq_true_eq] at h
  split_ifs at h
  all_goals simp_all [or_assoc]

theorem endsWord_of_isDigit {c : Char} (h : c.isDigit) : endsWord c = false := by
  have hmarks : ['"', ' ', '\t', '\n', '\r', '[', ']', '\x7b', '\x7d', ',', ':'].all
      (!·.isDigit) := by
    decide
  rw [Bool.eq_false_iff]
  intro hends
  have hmark := List.all_eq_true.mp hmarks c (mem_of_endsWord hends)
  rw [h] at hmark
  cases hmark

/-- A word would end where `rest` begins. -/
def Ends (rest : List Char) : Prop :=
  ∀ c ∈ rest.head?, endsWord c

theorem ends_cons {c : Char} (h : endsWord c) (rest : List Char) : Ends (c :: rest) := by
  intro d hd
  cases hd
  exact h

theorem scan_word_append {word : List Char} (h : word.all (!endsWord ·)) (read rest : List Char) :
    scan (.word read) (word ++ rest) = scan (.word (word.reverse ++ read)) rest := by
  induction word generalizing read with
  | nil => rfl
  | cons c word ih =>
      rw [List.all_cons, Bool.and_eq_true] at h
      obtain ⟨hc, hword⟩ := h
      simp only [endsWord, Bool.not_eq_true', Bool.or_eq_false_iff, decide_eq_false_iff_not,
        Option.isSome_eq_false_iff, Option.isNone_iff_eq_none] at hc
      rw [List.cons_append, scan]
      simp only [hc, ↓reduceIte, Bool.false_eq_true, ih hword]
      simp

@[simp] theorem afterWord_nil (tokens : List Token) : afterWord [] tokens = some tokens :=
  rfl

/-- Where a word ends, it is put in front of the tokens that are still to come. -/
theorem scan_word_of_ends {word rest : List Char} (h : Ends rest) :
    scan (.word word) rest = (scan (.word []) rest).bind (afterWord word.reverse) := by
  cases rest with
  | nil => rfl
  | cons c rest =>
      have hc : endsWord c := h c rfl
      simp only [endsWord, Bool.or_eq_true, decide_eq_true_eq, Option.isSome_iff_exists] at hc
      simp only [scan, List.reverse_nil, afterWord_nil, Option.bind_eq_bind]
      split_ifs with hquote hblank
      · rw [Option.bind_fun_some]
      · rw [Option.bind_fun_some]
      · obtain ⟨token, htoken⟩ := hc.resolve_left (not_or.mpr ⟨hquote, hblank⟩)
        rw [htoken, Option.bind_assoc]
        rfl

/-! ## Pieces -/

theorem scan_blank {c : Char} (h : isBlank c) (rest : List Char) :
    scan (.word []) (c :: rest) = scan (.word []) rest := by
  have hquote : c ≠ '"' := by
    rintro rfl
    exact absurd h (by decide)
  simp only [scan, hquote, h, ↓reduceIte, List.reverse_nil, afterWord_nil, Option.bind_eq_bind,
    Option.bind_fun_some]

theorem scan_blanks {blanks : List Char} (h : blanks.all isBlank) (rest : List Char) :
    scan (.word []) (blanks ++ rest) = scan (.word []) rest := by
  induction blanks with
  | nil => rfl
  | cons c blanks ih =>
      rw [List.all_cons, Bool.and_eq_true] at h
      rw [List.cons_append, scan_blank h.1, ih h.2]

theorem scan_punctuation {c : Char} {token : Token} (h : punctuation? c = some token)
    (rest : List Char) :
    scan (.word []) (c :: rest) = (scan (.word []) rest).map (token :: ·) := by
  have hquote : c ≠ '"' := by
    rintro rfl
    cases h
  have hblank : ¬isBlank c := by
    intro hc
    simp only [isBlank, Bool.or_eq_true, decide_eq_true_eq] at hc
    obtain ((rfl | rfl) | rfl) | rfl := hc
    all_goals cases h
  simp only [scan, hquote, hblank, h, ↓reduceIte, List.reverse_nil, afterWord_nil]
  exact bind_pure_comp (m := Option) _ _

theorem scan_word {word rest : List Char} {token : Token} (hword : ofWord? word = some token)
    (hplain : word.all (!endsWord ·)) (hends : Ends rest) :
    scan (.word []) (word ++ rest) = (scan (.word []) rest).map (token :: ·) := by
  have hne : word ≠ [] := by
    rintro rfl
    cases hword
  have hafter : afterWord word = fun tokens => some (token :: tokens) := by
    funext tokens
    rw [afterWord, if_neg hne, hword]
    rfl
  rw [scan_word_append hplain, scan_word_of_ends hends, List.append_nil, List.reverse_reverse,
    hafter]
  exact bind_pure_comp (m := Option) _ _

theorem scan_string_plain {c : Char} (hquote : c ≠ '"') (hslash : c ≠ '\\')
    (read rest : List Char) :
    scan (.string read) (c :: rest) = scan (.string (c :: read)) rest := by
  simp only [scan, hquote, hslash, ↓reduceIte]

theorem scan_spelling {c : Char} {raw : List Char} (h : Spelling c raw) (read rest : List Char) :
    scan (.string read) (raw ++ rest) = scan (.string (raw.reverse ++ read)) rest := by
  cases h with
  | short h => rfl
  | control h =>
      have hquote (d : Nat) : Nat.digitChar d ≠ '"' := Nat.digitChar_ne _ rfl
      have hslash (d : Nat) : Nat.digitChar d ≠ '\\' := Nat.digitChar_ne _ rfl
      change scan (.string _) (_ :: _ :: rest) = _
      rw [scan_string_plain (hquote _) (hslash _), scan_string_plain (hquote _) (hslash _)]
      rfl
  | plain _ hquote hslash => exact scan_string_plain hquote hslash read rest

theorem scan_flatMap_escaped (text read rest : List Char) :
    scan (.string read) (text.flatMap escaped ++ rest) =
      scan (.string ((text.flatMap escaped).reverse ++ read)) rest := by
  induction text generalizing read with
  | nil => rfl
  | cons c text ih =>
      rw [List.flatMap_cons, List.append_assoc, scan_spelling (spelling_escaped c), ih,
        List.reverse_append, List.append_assoc]

theorem scan_string_end {raw : List Char} {parts : List StringPart}
    (h : stringParts? raw = some parts) (rest : List Char) :
    scan (.string raw.reverse) ('"' :: rest) =
      (scan (.word []) rest).map (scalar (.string raw) :: ·) := by
  simp only [scan, ↓reduceIte, List.reverse_reverse, h, Option.bind_eq_bind, Option.bind_some]
  exact bind_pure_comp (m := Option) _ _

theorem scan_string (text rest : List Char) :
    scan (.word []) (Value.quoted (text.flatMap escaped) ++ rest) =
      (scan (.word []) rest).map (scalar (.string (text.flatMap escaped)) :: ·) := by
  obtain ⟨parts, hparts, -⟩ := Option.bind_eq_some_iff.mp (text?_flatMap_escaped text)
  have hquoted : Value.quoted (text.flatMap escaped) ++ rest =
      '"' :: (text.flatMap escaped ++ '"' :: rest) := by
    simp [Value.quoted]
  rw [hquoted, scan, if_pos rfl, scan_flatMap_escaped, List.append_nil, scan_string_end hparts]
  exact Option.bind_fun_some _

end CovenantStaking.Json.Token

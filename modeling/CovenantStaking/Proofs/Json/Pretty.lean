import CovenantStaking.Proofs.Json.Token

/-!
# Reading what was written

A value that is written with a line for each item is read back. The invariant is that reading the
written form of a value does to the stack what the value itself would do, whatever comes after it.
-/

namespace CovenantStaking.Json

open Token

/-! ## Reading piece by piece -/

namespace Progress

variable {p q : Progress} {stack : List Open} {rest : List Char}

/-- How far reading has come after one more piece of a text. -/
def read? (p : Progress) (text : List Char) : Option Progress := do
  let tokens ← Token.ofText text
  tokens.foldlM next? p

theorem read?_of_scan {text : List Char} {token : Token}
    (h : scan (.word []) text = (scan (.word []) rest).map (token :: ·))
    (hnext : p.next? token = some q) : p.read? text = q.read? rest := by
  simp only [read?, Token.ofText, h, Option.bind_eq_bind]
  cases scan (.word []) rest with
  | none => rfl
  | some tokens =>
      rw [Option.map_some, Option.bind_some, List.foldlM_cons, hnext]
      rfl

theorem read?_punctuation {c : Char} {token : Token} (h : punctuation? c = some token)
    (hnext : p.next? token = some q) : p.read? (c :: rest) = q.read? rest :=
  read?_of_scan (scan_punctuation h rest) hnext

theorem read?_quoted {text : List Char}
    (hnext : p.next? (.scalar (.string (text.flatMap escaped))) = some q) :
    p.read? (Value.quoted (text.flatMap escaped) ++ rest) = q.read? rest :=
  read?_of_scan (scan_string text rest) hnext

theorem read?_blanks {blanks : List Char} (h : blanks.all isBlank) :
    p.read? (blanks ++ rest) = p.read? rest := by
  rw [read?, read?, Token.ofText, Token.ofText, scan_blanks h]

theorem read?_newLine (level : Nat) : p.read? (Value.newLine level ++ rest) = p.read? rest := by
  refine read?_blanks (List.all_eq_true.mpr fun c hc => ?_)
  rw [Value.newLine, List.mem_cons, List.mem_replicate] at hc
  obtain rfl | ⟨-, rfl⟩ := hc
  · rfl
  · rfl

/-- A value may begin here, and will go to the innermost collection of the stack. -/
structure Awaits (p : Progress) (stack : List Open) : Prop where
  scalar (value : Value) : p.next? (.scalar value) = some (complete stack value)
  openArray : p.next? .openArray = some ⟨stack, .firstItem⟩
  openObject : p.next? .openObject = some ⟨stack, .firstKey⟩

theorem awaits_value (stack : List Open) : Awaits ⟨stack, .value⟩ stack :=
  ⟨fun _ => rfl, rfl, rfl⟩

theorem awaits_firstItem (stack : List Open) : Awaits ⟨stack, .firstItem⟩ (.array [] :: stack) :=
  ⟨fun _ => rfl, rfl, rfl⟩

theorem Awaits.read?_word {value : Value} {word : List Char} (h : p.Awaits stack)
    (hword : ofWord? word = some (.scalar value)) (hplain : word.all (!endsWord ·))
    (hends : Ends rest) : p.read? (word ++ rest) = (complete stack value).read? rest :=
  read?_of_scan (scan_word hword hplain hends) (h.scalar value)

end Progress

/-! ## Values -/

namespace Value

/-- The values that are written: numbers are natural, and strings and keys spell texts. -/
inductive Writable : Value → Prop
  | null : Writable null
  | bool (b : Bool) : Writable (bool b)
  | ofNat (n : Nat) : Writable (ofNat n)
  | text (text : List Char) : Writable (string (text.flatMap escaped))
  | array {items : List Value} (each : ∀ item ∈ items, Writable item) : Writable (array items)
  | object {members : List (List Char × Value)}
      (keys : ∀ member ∈ members, ∃ text : List Char, member.1 = text.flatMap escaped)
      (values : ∀ member ∈ members, Writable member.2) : Writable (object members)

/-- Reading a value's written form, wherever a value may begin, completes the value. -/
def ReadsBack (value : Value) : Prop :=
  ∀ {p : Progress} {stack : List Open} {rest : List Char} (level : Nat),
    p.Awaits stack → Ends rest →
      p.read? (value.prettyChars level ++ rest) = (Progress.complete stack value).read? rest

theorem ofWord?_toDigits (n : Nat) : ofWord? (Nat.toDigits 10 n) = some (.scalar (ofNat n)) := by
  have hne (c : Char) (word : List Char) (hc : ¬c.isDigit) : Nat.toDigits 10 n ≠ c :: word := by
    intro h
    have hmem : c ∈ Nat.toDigits 10 n := h ▸ List.mem_cons_self
    exact hc (Nat.isDigit_of_mem_toDigits (by decide) (by decide) hmem)
  rw [ofWord?, if_neg (hne _ _ (by decide)), if_neg (hne _ _ (by decide)),
    if_neg (hne _ _ (by decide)), if_pos (isNumber_toDigits n)]
  rfl

theorem readsBack_ofNat (n : Nat) : ReadsBack (ofNat n) := by
  intro p stack rest level h hends
  have hplain : (Nat.toDigits 10 n).all (!endsWord ·) := by
    refine List.all_eq_true.mpr fun c hc => ?_
    rw [endsWord_of_isDigit (List.all_eq_true.mp (isDigit_toDigits n) c hc)]
    rfl
  exact h.read?_word (ofWord?_toDigits n) hplain hends

theorem ends_prettyItems {rest : List Char} (h : Ends rest) (level : Nat) (items : List Value) :
    Ends (prettyItems level items ++ rest) := by
  cases items with
  | nil => exact h
  | cons item items => exact ends_cons rfl _

theorem ends_prettyMembers {rest : List Char} (h : Ends rest) (level : Nat)
    (members : List (List Char × Value)) : Ends (prettyMembers level members ++ rest) := by
  cases members with
  | nil => exact h
  | cons member members => exact ends_cons rfl _

theorem read?_prettyItems {items : List Value} (h : ∀ item ∈ items, ReadsBack item)
    {stack : List Open} {before : List Value} {rest : List Char} (level : Nat) (hends : Ends rest) :
    (⟨stack, .afterItem before⟩ : Progress).read? (prettyItems level items ++ rest) =
      (⟨stack, .afterItem (items.reverse ++ before)⟩ : Progress).read? rest := by
  induction items generalizing before with
  | nil => rfl
  | cons item items ih =>
      obtain ⟨hitem, hitems⟩ := List.forall_mem_cons.mp h
      have hnext := hitem level (Progress.awaits_value (.array before :: stack))
        (ends_prettyItems hends level items)
      rw [prettyItems]
      simp only [List.cons_append, List.append_assoc]
      rw [Progress.read?_punctuation rfl rfl, Progress.read?_newLine, hnext, Progress.complete,
        ih hitems, List.reverse_cons, List.append_assoc]
      rfl

theorem read?_member {key text : List Char} {value : Value} (hkey : key = text.flatMap escaped)
    (hvalue : ReadsBack value) {p : Progress} {stack : List Open}
    {before : List (List Char × Value)} {rest : List Char} (level : Nat)
    (hnext : p.next? (.scalar (.string key)) = some ⟨stack, .colon before key⟩)
    (hends : Ends rest) :
    p.read? (quoted key ++ ':' :: ' ' :: (prettyChars level value ++ rest)) =
      (⟨stack, .afterMember ((key, value) :: before)⟩ : Progress).read? rest := by
  subst hkey
  have hblank : [' '].all isBlank := rfl
  rw [Progress.read?_quoted hnext, Progress.read?_punctuation rfl rfl]
  exact (Progress.read?_blanks hblank).trans (hvalue level (Progress.awaits_value _) hends)

theorem read?_prettyMembers {members : List (List Char × Value)}
    (hkeys : ∀ member ∈ members, ∃ text : List Char, member.1 = text.flatMap escaped)
    (hvalues : ∀ member ∈ members, ReadsBack member.2) {stack : List Open}
    {before : List (List Char × Value)} {rest : List Char} (level : Nat) (hends : Ends rest) :
    (⟨stack, .afterMember before⟩ : Progress).read? (prettyMembers level members ++ rest) =
      (⟨stack, .afterMember (members.reverse ++ before)⟩ : Progress).read? rest := by
  induction members generalizing before with
  | nil => rfl
  | cons member members ih =>
      obtain ⟨⟨text, hkey⟩, hkeys⟩ := List.forall_mem_cons.mp hkeys
      obtain ⟨hvalue, hvalues⟩ := List.forall_mem_cons.mp hvalues
      rw [prettyMembers]
      simp only [List.cons_append, List.append_assoc]
      rw [Progress.read?_punctuation rfl rfl, Progress.read?_newLine,
        read?_member hkey hvalue level rfl (ends_prettyMembers hends level members),
        ih hkeys hvalues, List.reverse_cons, List.append_assoc]
      rfl

theorem readsBack_array {items : List Value} (h : ∀ item ∈ items, ReadsBack item) :
    ReadsBack (array items) := by
  intro p stack rest level hawaits hends
  cases items with
  | nil =>
      rw [prettyChars]
      exact (Progress.read?_punctuation rfl hawaits.openArray).trans
        (Progress.read?_punctuation rfl rfl)
  | cons item items =>
      obtain ⟨hitem, hitems⟩ := List.forall_mem_cons.mp h
      have hclose : Ends (newLine level ++ ']' :: rest) := ends_cons rfl _
      rw [prettyChars]
      simp only [List.cons_append, List.append_assoc, List.nil_append]
      rw [Progress.read?_punctuation rfl hawaits.openArray, Progress.read?_newLine,
        hitem (level + 1) (Progress.awaits_firstItem stack) (ends_prettyItems hclose _ items),
        Progress.complete, read?_prettyItems hitems _ hclose, Progress.read?_newLine,
        Progress.read?_punctuation rfl rfl, List.reverse_append, List.reverse_reverse]
      rfl

theorem readsBack_object {members : List (List Char × Value)}
    (hkeys : ∀ member ∈ members, ∃ text : List Char, member.1 = text.flatMap escaped)
    (hvalues : ∀ member ∈ members, ReadsBack member.2) : ReadsBack (object members) := by
  intro p stack rest level hawaits hends
  cases members with
  | nil =>
      rw [prettyChars]
      exact (Progress.read?_punctuation rfl hawaits.openObject).trans
        (Progress.read?_punctuation rfl rfl)
  | cons member members =>
      obtain ⟨⟨text, hkey⟩, hkeys⟩ := List.forall_mem_cons.mp hkeys
      obtain ⟨hvalue, hvalues⟩ := List.forall_mem_cons.mp hvalues
      have hclose : Ends (newLine level ++ '\x7d' :: rest) := ends_cons rfl _
      rw [prettyChars]
      simp only [List.cons_append, List.append_assoc, List.nil_append]
      rw [Progress.read?_punctuation rfl hawaits.openObject, Progress.read?_newLine,
        read?_member hkey hvalue (level + 1) rfl (ends_prettyMembers hclose _ members),
        read?_prettyMembers hkeys hvalues _ hclose, Progress.read?_newLine,
        Progress.read?_punctuation rfl rfl, List.reverse_append, List.reverse_reverse]
      rfl

theorem Writable.readsBack {value : Value} (h : value.Writable) : ReadsBack value := by
  induction h with
  | null =>
      intro p stack rest level h hends
      rw [prettyChars]
      exact h.read?_word rfl rfl hends
  | bool b =>
      intro p stack rest level h hends
      rw [prettyChars]
      cases b with
      | true => exact h.read?_word rfl rfl hends
      | false => exact h.read?_word rfl rfl hends
  | ofNat n => exact readsBack_ofNat n
  | text text =>
      intro p stack rest level h hends
      rw [prettyChars, Progress.read?_quoted (h.scalar _)]
  | array each ih => exact readsBack_array ih
  | object keys values ih => exact readsBack_object keys ih

theorem ofJson?_eq_bind_read? (text : String) :
    ofJson? text = (Progress.start.read? text.toList).bind Progress.value? := by
  simp only [ofJson?, Progress.read?, Option.bind_eq_bind, Option.bind_assoc]

theorem ofJson?_pretty {value : Value} (h : value.Writable) :
    ofJson? value.pretty = some value := by
  have hread := h.readsBack 0 (Progress.awaits_value []) (by nofun : Ends [])
  rw [List.append_nil] at hread
  rw [ofJson?_eq_bind_read?, pretty, String.toList_ofList, Progress.start, hread]
  rfl

end Value

end CovenantStaking.Json

import CovenantStaking.Json.Fields
import CovenantStaking.Proofs.Json.Pretty
import Mathlib.Data.List.Nodup

/-!
# The fields of a structure

A structure that is written gives each of its fields back, and what is read for a field is what the
text gives for it: the one member that is named so, or the item at its place.
-/

namespace CovenantStaking.Json

/-! ## Reading one by one -/

section

variable {α β : Type} {f : α → Option β} {l : List α} {l' : List β}

theorem mapM_of_forall {g : α → β} (h : ∀ a ∈ l, f a = some (g a)) :
    l.mapM f = some (l.map g) := by
  induction l with
  | nil => rfl
  | cons a l ih =>
      obtain ⟨ha, hl⟩ := List.forall_mem_cons.mp h
      rw [List.mapM_cons, ha, ih hl]
      rfl

theorem getElem?_of_mapM (h : l.mapM f = some l') (i : Nat) : l[i]?.map f = l'[i]?.map some := by
  induction l generalizing l' i with
  | nil =>
      cases h
      rfl
  | cons a l ih =>
      simp only [List.mapM_cons, Option.bind_eq_bind, Option.bind_eq_some_iff, Option.pure_def,
        Option.some.injEq] at h
      obtain ⟨b, hb, rest, hrest, rfl⟩ := h
      cases i with
      | zero => exact congrArg some hb
      | succ i => exact ih hrest i

theorem mem_of_mapM (h : l.mapM f = some l') {b : β} : b ∈ l' ↔ ∃ a ∈ l, f a = some b := by
  have hsome (i : Nat) : l'[i]? = some b ↔ ∃ a, l[i]? = some a ∧ f a = some b := by
    rw [← Option.map_eq_some_iff, getElem?_of_mapM h i]
    simp
  simp only [List.mem_iff_getElem?, hsome]
  constructor
  · rintro ⟨i, a, ha, hb⟩
    exact ⟨a, ⟨i, ha⟩, hb⟩
  · rintro ⟨a, ⟨i, ha⟩, hb⟩
    exact ⟨i, a, ha, hb⟩

end

/-! ## Names -/

/-- Nothing in a name has to be escaped. -/
def IsPlain (name : String) : Prop :=
  name.toList.flatMap escaped = name.toList

instance (name : String) : Decidable (IsPlain name) :=
  inferInstanceAs (Decidable (_ = _))

theorem IsPlain.text?_eq {name : String} (h : IsPlain name) :
    text? name.toList = some name.toList := by
  conv_lhs => rw [← h]
  exact text?_flatMap_escaped name.toList

theorem Value.variant?_ofText (name : String) : (ofText name).variant? = some name := by
  rw [ofText, variant?, text?_flatMap_escaped]
  exact congrArg some String.ofList_toList

/-! ## Members -/

section

variable {members : List (String × Value)} {name : String} {value : Value}

theorem mem_filter_key_iff :
    (name, value) ∈ members.filter (fun (key, _) => key = name) ↔ (name, value) ∈ members := by
  simp

theorem mem_members_iff {found : Option Value} (h : member? members name = some found) :
    (name, value) ∈ members ↔ found = some value := by
  rw [← mem_filter_key_iff]
  unfold member? at h
  split at h
  · rename_i hnone
    cases h
    simp [hnone]
  · rename_i key only hone
    cases h
    have hkey : key = name := by
      have hmem : (key, only) ∈ members.filter (fun (key, _) => key = name) := by simp [hone]
      simpa using (List.mem_filter.mp hmem).2
    subst hkey
    rw [hone, List.mem_singleton, Prod.mk.injEq, Option.some.injEq, eq_comm (a := only)]
    simp
  · cases h

theorem filter_key_of_nodup (hnodup : (members.map Prod.fst).Nodup) (h : (name, value) ∈ members) :
    members.filter (fun (key, _) => key = name) = [(name, value)] := by
  induction members with
  | nil => cases h
  | cons member members ih =>
      obtain ⟨key, other⟩ := member
      simp only [List.map_cons, List.nodup_cons, List.mem_map, not_exists, not_and, Prod.forall]
        at hnodup
      obtain ⟨hfresh, hnodup⟩ := hnodup
      rcases List.mem_cons.mp h with heq | hmem
      · cases heq
        have hrest : members.filter (fun (key, _) => key = name) = [] := by
          rw [List.filter_eq_nil_iff]
          intro member hmem hkey
          exact hfresh _ _ hmem (of_decide_eq_true hkey)
        rw [List.filter_cons_of_pos (by simp), hrest]
      · have hkey : key ≠ name := fun heq => hfresh _ _ hmem heq.symm
        rw [List.filter_cons_of_neg (by simpa using hkey), ih hnodup hmem]

theorem member?_of_nodup (hnodup : (members.map Prod.fst).Nodup) (h : (name, value) ∈ members) :
    member? members name = some (some value) := by
  rw [member?, filter_key_of_nodup hnodup h]

end

namespace Value

/-! ## Reading and writing -/

theorem items?_eq_some_iff {value : Value} {items : List Value} :
    value.items? = some items ↔ value = array items := by
  cases value with
  | array | null | bool | number | string | object => simp [items?]

section

variable {fields : List (String × Value)} {names : List String}

theorem writable_ofFields (hnames : fields.map Prod.fst = names)
    (hplain : ∀ name ∈ names, IsPlain name)
    (hvalues : ∀ value ∈ fields.map Prod.snd, value.Writable) : (ofFields fields).Writable := by
  subst hnames
  refine .object (List.forall_mem_map.mpr fun field hfield => ?_)
    (List.forall_mem_map.mpr fun field hfield => ?_)
  · exact ⟨field.1.toList, (hplain _ (List.mem_map_of_mem hfield)).symm⟩
  · exact hvalues _ (List.mem_map_of_mem hfield)

theorem fields?_ofFields (hnames : fields.map Prod.fst = names)
    (hplain : ∀ name ∈ names, IsPlain name) (hnodup : names.Nodup) :
    (ofFields fields).fields? names = some (fields.map fun field => some field.2) := by
  subst hnames
  rw [ofFields, fields?]
  refine Option.bind_eq_some_iff.mpr ⟨fields, ?_, ?_⟩
  · rw [List.mapM_map]
    refine (mapM_of_forall (g := id) ?_).trans (congrArg some (List.map_id fields))
    rintro ⟨name, value⟩ hfield
    simp [(hplain name (List.mem_map_of_mem hfield)).text?_eq]
  · rw [List.mapM_map]
    exact mapM_of_forall fun field hfield => member?_of_nodup hnodup hfield

end

/-! ## What a text gives -/

/-- A structure gives a value for a field: by a member that is named so, or by the item at the
field's place. -/
inductive Gives (names : List String) (name : String) : Value → Value → Prop
  | member {members : List (List Char × Value)} {key : List Char} {value : Value}
      (h : (key, value) ∈ members) (hkey : Json.text? key = some name.toList) :
      Gives names name (object members) value
  | item {items : List Value} {place : Nat} {value : Value} (hname : names[place]? = some name)
      (h : items[place]? = some value) : Gives names name (array items) value

section

variable {names : List String} {name : String} {value : Value} {fields : List (Option Value)}
  {place : Nat}

theorem gives_object_iff {members : List (List Char × Value)}
    (h : (object members).fields? names = some fields) (hname : names[place]? = some name) :
    Gives names name (object members) value ↔ fields[place]? = some (some value) := by
  simp only [fields?, Option.bind_eq_bind, Option.bind_eq_some_iff] at h
  obtain ⟨decoded, hdecoded, hfields⟩ := h
  have hplace := getElem?_of_mapM hfields place
  rw [hname, Option.map_some, eq_comm, Option.map_eq_some_iff] at hplace
  obtain ⟨found, hfound, hmember⟩ := hplace
  have hkeys : Gives names name (object members) value ↔ (name, value) ∈ decoded := by
    simp only [mem_of_mapM hdecoded, Prod.exists, Option.bind_eq_some_iff, Option.pure_def,
      Option.some.injEq, Prod.mk.injEq]
    constructor
    · rintro (⟨hmem, hkey⟩ | _)
      exact ⟨_, _, hmem, _, hkey, String.ofList_toList, rfl⟩
    · rintro ⟨key, _, hmem, text, hkey, rfl, rfl⟩
      exact .member hmem (by rw [hkey, String.toList_ofList])
  rw [hkeys, mem_members_iff hmember.symm, hfound, Option.some.injEq]

theorem gives_array_iff {items : List Value}
    (h : (array items).fields? names = some fields) (hname : names[place]? = some name)
    (hnodup : names.Nodup) :
    Gives names name (array items) value ↔ fields[place]? = some (some value) := by
  have hitem : Gives names name (array items) value ↔ items[place]? = some value := by
    constructor
    · intro hgives
      cases hgives with
      | @item _ other _ hother h =>
          obtain ⟨hlt, -⟩ := List.getElem?_eq_some_iff.mp hother
          obtain rfl := (List.getElem?_inj hlt hnodup).mp (hother.trans hname.symm)
          exact h
    · exact .item hname
  simp only [fields?, Option.ite_none_right_eq_some, Option.some.injEq] at h
  obtain ⟨-, rfl⟩ := h
  rw [hitem]
  rcases Nat.lt_or_ge place items.length with hlt | hge
  · rw [List.getElem?_append_left (by simpa using hlt), List.getElem?_map]
    simp
  · rw [List.getElem?_append_right (by simpa using hge), List.getElem?_eq_none hge,
      List.getElem?_replicate]
    simp

theorem gives_iff {whole : Value} (h : whole.fields? names = some fields)
    (hname : names[place]? = some name) (hnodup : names.Nodup) :
    Gives names name whole value ↔ fields[place]? = some (some value) := by
  cases whole with
  | object members => exact gives_object_iff h hname
  | array items => exact gives_array_iff h hname hnodup
  | null | bool | number | string => cases h

end

end Value

end CovenantStaking.Json

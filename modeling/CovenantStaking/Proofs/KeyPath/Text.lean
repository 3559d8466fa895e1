import CovenantStaking.Json.Domain
import CovenantStaking.Json.Reading
import CovenantStaking.Json.Writing
import CovenantStaking.Proofs.Json.Fields
import CovenantStaking.Proofs.KeyPath.Bytes

/-!
# Paths that are read from text

Nothing checks the depth of a path that is read from text: any path at all is read from the text it
is written as, and the depth is the byte that the text gives. So the path can be used just when that
byte is within the depths of a path that is made from its components.
-/

namespace CovenantStaking

open Json

namespace KeyPath

/-! ## Reading and writing -/

theorem ofJson?_eq_some_iff {value : Value} {path : KeyPath} :
    ofJson? value = some path ↔ ∃ words depth,
      value.fields? fieldNames = some [some (.array words), some depth] ∧
      words.mapM (fun word => UInt32.ofNat <$> word.natural? UInt32.size) = some path.slots ∧
      depth.natural? UInt8.size = some path.depth.toNat := by
  constructor
  · intro h
    simp only [ofJson?, Option.bind_eq_bind, Option.bind_eq_some_iff] at h
    obtain ⟨fields, hfields, h⟩ := h
    split at h
    · rename_i components depth
      simp only [Option.bind_eq_some_iff, Option.dite_none_right_eq_some, Option.some.injEq] at h
      obtain ⟨items, hitems, words, hwords, n, hdepth, hlength, rfl⟩ := h
      obtain rfl := Value.items?_eq_some_iff.mp hitems
      obtain ⟨_, _, _, _, hlt⟩ := Value.natural?_eq_some_iff.mp hdepth
      rw [← UInt8.toNat_ofNat_of_lt hlt] at hdepth
      exact ⟨items, depth, hfields, hwords, hdepth⟩
    · cases h
  · rintro ⟨words, depth, hfields, hwords, hdepth⟩
    simp only [ofJson?, hfields, Value.items?, hwords, hdepth, path.slots_length, ↓reduceDIte,
      Option.bind_eq_bind, Option.bind_some, UInt8.ofNat_toNat]

theorem ofJson?_toJson (path : KeyPath) : ofJson? path.toJson = some path := by
  have hfields : path.toJson.fields? fieldNames =
      some [some (.array (path.slots.map fun word => .ofNat word.toNat)),
        some (.ofNat path.depth.toNat)] :=
    Value.fields?_ofFields rfl (by decide) (by decide)
  have hwords : (path.slots.map fun word => Value.ofNat word.toNat).mapM (fun item =>
      UInt32.ofNat <$> item.natural? UInt32.size) = some path.slots := by
    rw [List.mapM_map, mapM_of_forall (g := id), List.map_id]
    intro word _
    simp [Value.natural?_ofNat word.toNat_lt]
  have hdepth := Value.natural?_ofNat path.depth.toNat_lt
  exact ofJson?_eq_some_iff.mpr ⟨_, _, hfields, hwords, hdepth⟩

theorem writable_toJson (path : KeyPath) : path.toJson.Writable := by
  have hplain : ∀ name ∈ fieldNames, IsPlain name := by decide
  refine Value.writable_ofFields rfl hplain ?_
  simp only [List.map_cons, List.map_nil, List.forall_mem_cons]
  exact ⟨.array (List.forall_mem_map.mpr fun _ _ => .ofNat _), .ofNat _, nofun⟩

theorem read?_pretty_toJson (path : KeyPath) :
    Json.read? ofJson? path.toJson.pretty = some path := by
  rw [Json.read?, Value.ofJson?_pretty path.writable_toJson]
  exact path.ofJson?_toJson

/-! ## The depth that a text gives -/

theorem exists_depth_of_ofJson? {value : Value} {path : KeyPath} (h : ofJson? value = some path) :
    ∃ literal, path.depth.toNat = Nat.ofDigitChars 10 literal 0 ∧
      ∀ given, Value.Gives fieldNames "depth" value given ↔ given = .number literal := by
  obtain ⟨words, depth, hfields, -, hdepth⟩ := ofJson?_eq_some_iff.mp h
  obtain ⟨literal, rfl, -, hnumber, -⟩ := Value.natural?_eq_some_iff.mp hdepth
  have hname : fieldNames[1]? = some "depth" := rfl
  refine ⟨literal, hnumber, fun given => ?_⟩
  rw [Value.gives_iff hfields hname (by decide)]
  simp [eq_comm (a := given)]

/-- A path can be used if and only if its depth is one that a path is made with. Any path at all is
read from the text it is written as, and whichever text it is read from, the depth is up to it. -/
theorem usable_iff_text_gives_depth (path : KeyPath) :
    (path.Usable ↔ 1 ≤ path.depth.toNat ∧ path.depth.toNat ≤ maxDepth) ∧
    Json.read? ofJson? path.toJson.pretty = some path ∧
    ∀ text, Json.read? ofJson? text = some path →
      (path.Usable ↔ ∃ value literal, Value.ofJson? text = some value ∧
        Value.Gives fieldNames "depth" value (.number literal) ∧
        1 ≤ Nat.ofDigitChars 10 literal 0 ∧ Nat.ofDigitChars 10 literal 0 ≤ maxDepth) := by
  refine ⟨usable_iff, path.read?_pretty_toJson, fun text h => ?_⟩
  obtain ⟨value, hvalue, hpath⟩ := Option.bind_eq_some_iff.mp h
  obtain ⟨literal, hdepth, hgives⟩ := exists_depth_of_ofJson? hpath
  rw [usable_iff, hdepth]
  constructor
  · intro hrange
    exact ⟨value, literal, hvalue, (hgives _).mpr rfl, hrange⟩
  · rintro ⟨other, given, hother, hgiven, hrange⟩
    obtain rfl := Option.some.inj (hvalue.symm.trans hother)
    obtain rfl := Value.number.inj ((hgives _).mp hgiven)
    exact hrange

/-- The path `m/86'/1'/0'/0/3`, given as an array. -/
theorem usable_iff_text_gives_depth_five :
    let text := "[[2147483734,2147483649,2147483648,0,3,0,0,0,0,0],5]"
    Json.read? ofJson? text = some (taproot 1 0 0 3) ∧ (taproot 1 0 0 3).Usable ∧
      ∃ value literal, Value.ofJson? text = some value ∧
        Value.Gives fieldNames "depth" value (.number literal) ∧
        1 ≤ Nat.ofDigitChars 10 literal 0 ∧ Nat.ofDigitChars 10 literal 0 ≤ maxDepth := by
  intro text
  have hread : Json.read? ofJson? text = some (taproot 1 0 0 3) := by decide +kernel
  obtain ⟨hrange, -, hgives⟩ := usable_iff_text_gives_depth (taproot 1 0 0 3)
  have husable := hrange.mpr (by decide)
  exact ⟨hread, husable, (hgives text hread).mp husable⟩

/-- A text that gives a path more components than there are words. -/
theorem unusable_at_depth_eleven :
    let text := "\x7b\"components\":[0,0,0,0,0,0,0,0,0,0],\"depth\":11\x7d"
    ∃ path, Json.read? ofJson? text = some path ∧ path.depth = 11 ∧ path.components? = none ∧
      ¬path.Usable := by
  refine ⟨⟨List.replicate 10 0, 11, rfl⟩, by decide +kernel, rfl, rfl, ?_⟩
  rw [usable_iff]
  decide

end KeyPath

end CovenantStaking

import CovenantStaking.Proofs.Blob.Grammar
import Mathlib.Data.List.Perm.Basic
import Mathlib.Data.Set.Basic

/-!
# Records in any order

Records have different tags, so each is found wherever it stands. What a blob decodes to is decided
by its records, the counts left out, and by no order among them.
-/

namespace CovenantStaking

theorem Tag.not_isCount_iff {tag : Tag} : ¬tag.IsCount ↔ tag.code ≠ 0xf9 ∧ tag.code ≠ 0xc0 := by
  simp only [IsCount, not_or, ← code_eq_iff]
  rfl

variable {es es' : List Entry} {tag : Tag} {value : Bytes}

/-! ## Entries in another order -/

theorem exists_map_eq_of_perm_map {α β : Type} {f : α → β} {images : List β} {items : List α}
    (h : images.Perm (items.map f)) :
    ∃ items' : List α, items'.map f = images ∧ items'.Perm items := by
  have hcomp := congrFun (congrFun (List.eq_map_comp_perm f) images) items
  obtain ⟨items', himages, hitems⟩ := hcomp.mpr h
  exact ⟨items', himages.symm, hitems⟩

namespace Entry

theorem valueIn_eq_some_iff (hdistinct : (es.map Entry.tag).Nodup) :
    valueIn es tag = some value ↔ ∃ e ∈ es, e.tag = tag ∧ e.value = value := by
  induction es with
  | nil => simp [valueIn]
  | cons e es ih =>
      obtain ⟨hfresh, hrest⟩ := List.nodup_cons.mp hdistinct
      rw [valueIn_cons]
      split
      · rename_i htag
        constructor
        · rintro ⟨⟩
          exact ⟨e, List.mem_cons_self, htag, rfl⟩
        · rintro ⟨e', he', htag', rfl⟩
          rcases List.mem_cons.mp he' with rfl | hlater
          · rfl
          · exact absurd (List.mem_map.mpr ⟨e', hlater, htag'.trans htag.symm⟩) hfresh
      · rename_i htag
        rw [ih hrest]
        simp [htag]

theorem valueIn_perm (hperm : es.Perm es') (hdistinct : (es.map Entry.tag).Nodup) :
    valueIn es = valueIn es' := by
  have hdistinct' := (hperm.map Entry.tag).nodup_iff.mp hdistinct
  funext tag
  apply Option.ext
  intro value
  simp only [valueIn_eq_some_iff hdistinct, valueIn_eq_some_iff hdistinct', hperm.mem_iff]

theorem findSome?_perm {count? : Entry → Option UInt8}
    (hcount : ∀ es : List Entry, (es.findSome? count?).map (fun n => [n]) = valueIn es tag)
    (hperm : es.Perm es') (hdistinct : (es.map Entry.tag).Nodup) :
    es.findSome? count? = es'.findSome? count? := by
  apply Option.map_injective byteValue_injective
  rw [hcount, hcount, valueIn_perm hperm hdistinct]

end Entry

namespace Request

theorem ofEntries_eq_iff (hdistinct : (es.map Entry.tag).Nodup)
    (hdistinct' : (es'.map Entry.tag).Nodup) (hlegal : ∀ e ∈ es, e.Legal)
    (hlegal' : ∀ e ∈ es', e.Legal) :
    ofEntries es = ofEntries es' ↔
      ∀ tag : Tag, ¬tag.IsCount → Entry.valueIn es tag = Entry.valueIn es' tag := by
  constructor
  · intro h tag htag
    rw [← written_ofEntries hdistinct htag, h, written_ofEntries hdistinct' htag]
  · intro h
    refine eq_of_written (fun tag htag => ?_) (legal_ofEntries hlegal).derivationPath
      (legal_ofEntries hlegal').derivationPath
    rw [written_ofEntries hdistinct htag, h tag htag, written_ofEntries hdistinct' htag]

end Request

namespace Blob

theorem decode_framedEntries (hdistinct : (es.map Entry.tag).Nodup) (hlegal : ∀ e ∈ es, e.Legal) :
    decode (framedEntries es) = (do
      Request.checkCount .finalityProviders (es.findSome? Entry.providerCount?)
        (Request.ofEntries es).finalityProviders
      Request.checkCount .covenantKeys (es.findSome? Entry.covenantCount?)
        (Request.ofEntries es).covenantKeys
      (Request.ofEntries es).checkQuorum
      pure (Request.ofEntries es)) := by
  rw [decode, entries_eq_ok_iff.mpr ⟨rfl, hdistinct, hlegal⟩]
  rfl

theorem decode_framedEntries_perm (hperm : es.Perm es') (hdistinct : (es.map Entry.tag).Nodup)
    (hlegal : ∀ e ∈ es, e.Legal) : decode (framedEntries es) = decode (framedEntries es') := by
  have hdistinct' := (hperm.map Entry.tag).nodup_iff.mp hdistinct
  have hlegal' : ∀ e ∈ es', e.Legal := fun e he => hlegal e (hperm.mem_iff.mpr he)
  have hrequest : Request.ofEntries es = Request.ofEntries es' := by
    rw [Request.ofEntries_eq_iff hdistinct hdistinct' hlegal hlegal']
    intro tag _
    rw [Entry.valueIn_perm hperm hdistinct]
  rw [decode_framedEntries hdistinct hlegal, decode_framedEntries hdistinct' hlegal', hrequest,
    Entry.findSome?_perm Entry.valueIn_providerCount hperm hdistinct,
    Entry.findSome?_perm Entry.valueIn_covenantCount hperm hdistinct]

/-! ## The records of a blob -/

/-- The blob consists of these complete records. -/
structure FramedAs (blob : Bytes) (records : List Record) : Prop where
  bytes : blob = records.flatMap Record.framed
  announceable : ∀ record ∈ records, record.Announceable

theorem FramedAs.unique {blob : Bytes} {records records' : List Record}
    (h : FramedAs blob records) (h' : FramedAs blob records') : records = records' := by
  induction records generalizing blob records' with
  | nil =>
      cases records' with
      | nil => rfl
      | cons record' records' => cases h.bytes.symm.trans h'.bytes
  | cons record records ih =>
      cases records' with
      | nil => cases h'.bytes.symm.trans h.bytes
      | cons record' records' =>
          obtain ⟨hrecord, hrecords⟩ := List.forall_mem_cons.mp h.announceable
          obtain ⟨hrecord', hrecords'⟩ := List.forall_mem_cons.mp h'.announceable
          -- a scan that starts at the blob meets the first record of either list
          have hfirst : firstRecord 0 blob = .ok (record, records.flatMap Record.framed) :=
            firstRecord_eq_ok_iff.mpr ⟨hrecord, h.bytes⟩
          have hfirst' : firstRecord 0 blob = .ok (record', records'.flatMap Record.framed) :=
            firstRecord_eq_ok_iff.mpr ⟨hrecord', h'.bytes⟩
          obtain ⟨rfl, hrest⟩ := Prod.mk.inj (Except.ok.inj (hfirst.symm.trans hfirst'))
          rw [ih ⟨rfl, hrecords⟩ ⟨hrest, hrecords'⟩]

/-- The records of a blob, but for those that count. -/
def fieldRecords (blob : Bytes) : Set Record :=
  {record | (∃ records, FramedAs blob records ∧ record ∈ records) ∧
    record.tag ≠ 0xf9 ∧ record.tag ≠ 0xc0}

theorem framedAs_framedEntries (hlegal : ∀ e ∈ es, e.Legal) :
    FramedAs (framedEntries es) (es.map Entry.record) := by
  constructor
  case bytes => rw [List.flatMap_map, framedEntries]
  case announceable =>
    intro record hrecord
    obtain ⟨e, he, rfl⟩ := List.mem_map.mp hrecord
    exact (hlegal e he).announceable

theorem mem_fieldRecords_iff (hdistinct : (es.map Entry.tag).Nodup) (hlegal : ∀ e ∈ es, e.Legal)
    {record : Record} : record ∈ fieldRecords (framedEntries es) ↔
      ∃ tag : Tag, ¬tag.IsCount ∧ tag.code = record.tag ∧
        Entry.valueIn es tag = some record.value := by
  simp only [Entry.valueIn_eq_some_iff hdistinct]
  constructor
  · rintro ⟨⟨records, hframed, hmem⟩, htag⟩
    cases hframed.unique (framedAs_framedEntries hlegal)
    obtain ⟨e, he, rfl⟩ := List.mem_map.mp hmem
    exact ⟨e.tag, Tag.not_isCount_iff.mpr htag, rfl, e, he, rfl, rfl⟩
  · rintro ⟨_, htag, hcode, e, he, rfl, hvalue⟩
    have hrecord : e.record = record := by
      cases record
      simp only at hcode hvalue
      rw [Entry.record, hcode, hvalue]
    refine ⟨⟨_, framedAs_framedEntries hlegal, List.mem_map.mpr ⟨e, he, hrecord⟩⟩, ?_⟩
    rw [← hcode]
    exact Tag.not_isCount_iff.mp htag

theorem fieldRecords_framedEntries_eq_iff (hdistinct : (es.map Entry.tag).Nodup)
    (hdistinct' : (es'.map Entry.tag).Nodup) (hlegal : ∀ e ∈ es, e.Legal)
    (hlegal' : ∀ e ∈ es', e.Legal) :
    fieldRecords (framedEntries es) = fieldRecords (framedEntries es') ↔
      ∀ tag : Tag, ¬tag.IsCount → Entry.valueIn es tag = Entry.valueIn es' tag := by
  simp only [Set.ext_iff, mem_fieldRecords_iff hdistinct hlegal,
    mem_fieldRecords_iff hdistinct' hlegal']
  constructor
  · intro h tag htag
    apply Option.ext
    intro value
    simpa [Tag.code_eq_iff, htag] using h ⟨tag.code, value⟩
  · intro h record
    constructor
    · rintro ⟨tag, htag, hcode, hvalue⟩
      exact ⟨tag, htag, hcode, (h tag htag).symm.trans hvalue⟩
    · rintro ⟨tag, htag, hcode, hvalue⟩
      exact ⟨tag, htag, hcode, (h tag htag).trans hvalue⟩

/-! ## One form for each request -/

/-- Two blobs that are decoded make the same request exactly when they have the same records, the
counts left out. In particular the records of a blob may stand in any order. -/
theorem decode_eq_iff_fieldRecords_eq {blob blob' : Bytes} {r r' : Request}
    (h : decode blob = .ok r) (h' : decode blob' = .ok r') :
    (decode blob = decode blob' ↔ fieldRecords blob = fieldRecords blob') ∧
    ∃ records, FramedAs blob records ∧ ∀ records', records.Perm records' →
      decode (records'.flatMap Record.framed) = decode blob := by
  obtain ⟨es, rfl, hdistinct, hlegal, rfl⟩ := exists_entries_of_decode h
  obtain ⟨es', rfl, hdistinct', hlegal', rfl⟩ := exists_entries_of_decode h'
  constructor
  · rw [h, h', Except.ok.injEq, Request.ofEntries_eq_iff hdistinct hdistinct' hlegal hlegal',
      fieldRecords_framedEntries_eq_iff hdistinct hdistinct' hlegal hlegal']
  · refine ⟨_, framedAs_framedEntries hlegal, ?_⟩
    intro records' hperm
    obtain ⟨es', rfl, hes'⟩ := exists_map_eq_of_perm_map hperm.symm
    rw [decode_framedEntries_perm hes'.symm hdistinct hlegal, framedEntries, List.flatMap_map]

/-- An empty list of providers, counted and then the action, or the other way round and not
counted. -/
theorem fieldRecords_eq_of_uncounted :
    let counted : Bytes := [0xf9, 0, 1, 0, 0xf8, 0, 0, 0x77, 0, 1, 3]
    let uncounted : Bytes := [0x77, 0, 1, 3, 0xf8, 0, 0]
    let request : Request := { action := some .slashing, finalityProviders := some [] }
    decode counted = .ok request ∧ decode uncounted = .ok request ∧
      fieldRecords counted = fieldRecords uncounted := by
  intro counted uncounted request
  have hcounted : decode counted = .ok request := toOption_eq_some_iff.mp (by decide +kernel)
  have huncounted : decode uncounted = .ok request := toOption_eq_some_iff.mp (by decide +kernel)
  obtain ⟨hiff, _⟩ := decode_eq_iff_fieldRecords_eq hcounted huncounted
  exact ⟨hcounted, huncounted, hiff.mp (hcounted.trans huncounted.symm)⟩

end Blob

end CovenantStaking

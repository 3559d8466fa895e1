import CovenantStaking.Proofs.Blob.Framing
import Mathlib.Data.List.Nodup

/-!
# The grammar of parameter blobs

A blob is a list of complete records with different tags, each with a value that its tag allows, in
which counts agree with lists and the quorum can be reached. Decoding takes the blobs of this
grammar and no others, and every field is the value of its record.
-/

namespace CovenantStaking

/-! ## Grammar -/

def Tag.Allows : Tag → Bytes → Prop
  | action, value => ∃ code : UInt8, value = [code] ∧ 1 ≤ code.toNat ∧ code.toNat ≤ 7
  | providerCount, value | covenantCount, value | covenantQuorum, value => value.length = 1
  | providers, value | covenantKeys, value => value.length % 32 = 0 ∧ value.length / 32 ≤ 16
  | stakerKey, value | txid, value => value.length = 32
  | timelock, value | slashingFeeLimit, value | unbondingFeeLimit, value => value.length = 8
  | message, value => value.length ≤ 40
  | messageKey, value => value.length = 32 ∨ value.length = 33
  | burnAddress, value => 1 ≤ value.length ∧ value.length ≤ 32
  | derivationPath, value =>
    value.length % 4 = 0 ∧ 1 ≤ value.length / 4 ∧ value.length / 4 ≤ 10

/-- The value of the record with a tag, if there is one. -/
def Blob.valueOf (records : List Record) (tag : Tag) : Option Bytes :=
  (records.find? fun r => r.tag = tag.code).map Record.value

/-- The field that a tag sets, in written form. The counts set no field. -/
def Request.written (r : Request) : Tag → Option Bytes
  | .action => r.action.map fun a => [a.code]
  | .providers => r.finalityProviders.map Entry.keysValue
  | .covenantKeys => r.covenantKeys.map Entry.keysValue
  | .covenantQuorum => r.covenantQuorum.map fun n => [n]
  | .stakerKey => r.stakerKey.map fun key => key.bytes
  | .timelock => r.timelock.map Entry.wordValue
  | .slashingFeeLimit => r.slashingFeeLimit.map Entry.wordValue
  | .unbondingFeeLimit => r.unbondingFeeLimit.map Entry.wordValue
  | .message => r.message
  | .messageKey => r.messageKey.map Entry.messageKeyValue
  | .txid => r.txid.map fun id => id.bytes
  | .burnAddress => r.burnAddress
  | .derivationPath => r.derivationPath.map KeyPath.bytes
  | .providerCount | .covenantCount => none

/-- The tag announces how long a list is. -/
def Tag.IsCount (tag : Tag) : Prop :=
  tag = providerCount ∨ tag = covenantCount

/-- The blob consists of these records, and every field of the request is the value of its record,
or unset if there is no such record. -/
structure Blob.Spells (blob : Bytes) (records : List Record) (r : Request) : Prop where
  framed : blob = records.flatMap Record.framed
  announceable : ∀ record ∈ records, record.Announceable
  distinct : (records.map Record.tag).Nodup
  allowed : ∀ record ∈ records, ∃ tag : Tag, tag.code = record.tag ∧ tag.Allows record.value
  providerCount : ∀ value ∈ valueOf records .providerCount, ∀ keys ∈ r.finalityProviders,
    ofBeBytes value = keys.length
  covenantCount : ∀ value ∈ valueOf records .covenantCount, ∀ keys ∈ r.covenantKeys,
    ofBeBytes value = keys.length
  quorum : ∀ n ∈ r.covenantQuorum, ∀ keys ∈ r.covenantKeys, n.toNat ≤ keys.length
  fields : ∀ tag : Tag, ¬ tag.IsCount → r.written tag = valueOf records tag
  packed : ∀ path ∈ r.derivationPath, path.Packed

/-! ## Allowed values -/

theorem Action.exists_code_iff {code : UInt8} :
    (∃ a : Action, a.code = code) ↔ 1 ≤ code.toNat ∧ code.toNat ≤ 7 := by
  constructor
  · rintro ⟨a, rfl⟩
    cases a <;> decide
  · rintro ⟨hlow, hhigh⟩
    have hall : ∀ n : Fin 8, 1 ≤ n.val → ∃ a ∈ all, a.code = UInt8.ofNat n.val := by decide
    obtain ⟨a, _, ha⟩ := hall ⟨code.toNat, by omega⟩ hlow
    exact ⟨a, by rw [ha, UInt8.ofNat_toNat]⟩

theorem Tag.allows_iff {tag : Tag} {value : Bytes} :
    tag.Allows value ↔ ∃ e : Entry, e.tag = tag ∧ e.value = value ∧ e.Legal := by
  constructor
  · intro h
    cases tag with
    | action =>
        obtain ⟨code, rfl, hcode⟩ := h
        obtain ⟨a, rfl⟩ := Action.exists_code_iff.mpr hcode
        exact ⟨.action a, rfl, rfl, trivial⟩
    | providerCount =>
        obtain ⟨n, rfl⟩ := List.length_eq_one_iff.mp h
        exact ⟨.providerCount n, rfl, rfl, trivial⟩
    | covenantCount =>
        obtain ⟨n, rfl⟩ := List.length_eq_one_iff.mp h
        exact ⟨.covenantCount n, rfl, rfl, trivial⟩
    | covenantQuorum =>
        obtain ⟨n, rfl⟩ := List.length_eq_one_iff.mp h
        exact ⟨.covenantQuorum n, rfl, rfl, trivial⟩
    | providers =>
        obtain ⟨keys, hcount, rfl⟩ := Entry.exists_keysValue_iff.mpr h
        exact ⟨.providers keys, rfl, rfl, hcount⟩
    | covenantKeys =>
        obtain ⟨keys, hcount, rfl⟩ := Entry.exists_keysValue_iff.mpr h
        exact ⟨.covenantKeys keys, rfl, rfl, hcount⟩
    | stakerKey => exact ⟨.stakerKey ⟨⟨value, h⟩⟩, rfl, rfl, trivial⟩
    | txid => exact ⟨.txid ⟨⟨value, h⟩⟩, rfl, rfl, trivial⟩
    | timelock =>
        obtain ⟨n, rfl⟩ := Entry.exists_wordValue_iff.mpr h
        exact ⟨.timelock n, rfl, rfl, trivial⟩
    | slashingFeeLimit =>
        obtain ⟨n, rfl⟩ := Entry.exists_wordValue_iff.mpr h
        exact ⟨.slashingFeeLimit n, rfl, rfl, trivial⟩
    | unbondingFeeLimit =>
        obtain ⟨n, rfl⟩ := Entry.exists_wordValue_iff.mpr h
        exact ⟨.unbondingFeeLimit n, rfl, rfl, trivial⟩
    | message => exact ⟨.message value, rfl, rfl, h⟩
    | messageKey =>
        obtain ⟨key, rfl⟩ := Entry.exists_messageKeyValue_iff.mpr h
        exact ⟨.messageKey key, rfl, rfl, trivial⟩
    | burnAddress => exact ⟨.burnAddress value, rfl, rfl, h⟩
    | derivationPath =>
        obtain ⟨path, hpacked, rfl⟩ := Entry.exists_packed_iff.mpr h
        exact ⟨.derivationPath path, rfl, rfl, hpacked⟩
  · rintro ⟨e, rfl, rfl, hlegal⟩
    cases e with
    | action a => exact ⟨a.code, rfl, Action.exists_code_iff.mp ⟨a, rfl⟩⟩
    | providerCount _ | covenantCount _ | covenantQuorum _ => exact rfl
    | providers keys | covenantKeys keys => exact Entry.exists_keysValue_iff.mp ⟨keys, hlegal, rfl⟩
    | stakerKey key => exact key.length_eq
    | txid id => exact id.length_eq
    | timelock n | slashingFeeLimit n | unbondingFeeLimit n =>
        exact Entry.exists_wordValue_iff.mp ⟨n, rfl⟩
    | message _ | burnAddress _ => exact hlegal
    | messageKey key => exact Entry.exists_messageKeyValue_iff.mp ⟨key, rfl⟩
    | derivationPath path => exact Entry.exists_packed_iff.mp ⟨path, hlegal, rfl⟩

/-! ## Fields -/

/-- The value of the entry with a tag, if there is one. -/
def Entry.valueIn (es : List Entry) (tag : Tag) : Option Bytes :=
  (es.find? fun e => e.tag = tag).map Entry.value

theorem Entry.valueIn_cons (e : Entry) (es : List Entry) (tag : Tag) :
    valueIn (e :: es) tag = if e.tag = tag then some e.value else valueIn es tag := by
  by_cases h : e.tag = tag <;> simp [valueIn, h]

theorem Entry.valueIn_eq_none {es : List Entry} {tag : Tag} (h : tag ∉ es.map Entry.tag) :
    valueIn es tag = none := by
  rw [valueIn, Option.map_eq_none_iff, List.find?_eq_none]
  intro e he
  simpa using fun htag => h (List.mem_map.mpr ⟨e, he, htag⟩)

theorem Tag.code_eq_iff {a b : Tag} : a.code = b.code ↔ a = b :=
  ⟨code_inj, congrArg code⟩

theorem Blob.valueOf_map_record (es : List Entry) (tag : Tag) :
    valueOf (es.map Entry.record) tag = Entry.valueIn es tag := by
  simp only [valueOf, List.find?_map, Function.comp_def, Entry.record, Tag.code_eq_iff,
    Option.map_map, Entry.valueIn]

theorem Request.written_put (r : Request) (e : Entry) {tag : Tag} (h : ¬ tag.IsCount) :
    (r.put e).written tag = if e.tag = tag then some e.value else r.written tag := by
  cases tag with
  | providerCount => exact absurd (.inl rfl) h
  | covenantCount => exact absurd (.inr rfl) h
  | _ => cases e <;> rfl

/-- Of entries with different tags, each sets its own field, whatever comes before and after. -/
theorem Request.written_foldl_put {es : List Entry} (hdistinct : (es.map Entry.tag).Nodup)
    (r : Request) {tag : Tag} (h : ¬ tag.IsCount) :
    (es.foldl put r).written tag = (Entry.valueIn es tag).or (r.written tag) := by
  induction es generalizing r with
  | nil => rfl
  | cons e es ih =>
      obtain ⟨hfresh, hrest⟩ := List.nodup_cons.mp hdistinct
      rw [List.foldl_cons, ih hrest, written_put r e h, Entry.valueIn_cons]
      split
      · rename_i htag
        subst htag
        rw [Entry.valueIn_eq_none hfresh]
        rfl
      · rfl

theorem Request.written_ofEntries {es : List Entry} (hdistinct : (es.map Entry.tag).Nodup)
    {tag : Tag} (h : ¬ tag.IsCount) : (ofEntries es).written tag = Entry.valueIn es tag := by
  have hempty : empty.written tag = none := by cases tag <;> rfl
  rw [ofEntries, written_foldl_put hdistinct empty h, hempty, Option.or_none]

/-! ## Limits -/

/-- The fields keep the limits of their kinds. -/
structure Request.Legal (r : Request) : Prop where
  finalityProviders : ∀ keys ∈ r.finalityProviders, keys.length ≤ maxKeys
  covenantKeys : ∀ keys ∈ r.covenantKeys, keys.length ≤ maxKeys
  message : ∀ text ∈ r.message, text.length ≤ maxMessageLength
  burnAddress : ∀ script ∈ r.burnAddress,
    1 ≤ script.length ∧ script.length ≤ maxBurnAddressLength
  derivationPath : ∀ path ∈ r.derivationPath, path.Packed

theorem Request.Legal.put {r : Request} {e : Entry} (hr : r.Legal) (he : e.Legal) :
    (r.put e).Legal := by
  cases e with
  | providers keys => exact { hr with finalityProviders := by rintro _ ⟨⟩; exact he }
  | covenantKeys keys => exact { hr with covenantKeys := by rintro _ ⟨⟩; exact he }
  | message text => exact { hr with message := by rintro _ ⟨⟩; exact he }
  | burnAddress script => exact { hr with burnAddress := by rintro _ ⟨⟩; exact he }
  | derivationPath path => exact { hr with derivationPath := by rintro _ ⟨⟩; exact he }
  | _ => exact ⟨hr.finalityProviders, hr.covenantKeys, hr.message, hr.burnAddress,
      hr.derivationPath⟩

theorem Request.legal_ofEntries {es : List Entry} (hlegal : ∀ e ∈ es, e.Legal) :
    (ofEntries es).Legal :=
  List.foldlRecOn es put ⟨nofun, nofun, nofun, nofun, nofun⟩
    fun _ hr e he => hr.put (hlegal e he)

theorem Blob.exists_entries_of_decode {blob : Bytes} {r : Request} (h : decode blob = .ok r) :
    ∃ es, blob = framedEntries es ∧ (es.map Entry.tag).Nodup ∧ (∀ e ∈ es, e.Legal) ∧
      r = .ofEntries es := by
  simp only [decode, bind_eq_ok_iff, entries_eq_ok_iff, pure_eq_ok_iff] at h
  obtain ⟨es, ⟨hblob, hdistinct, hlegal⟩, _, _, _, _, _, _, rfl⟩ := h
  exact ⟨es, hblob, hdistinct, hlegal, rfl⟩

theorem Request.legal_of_decode {blob : Bytes} {r : Request} (h : Blob.decode blob = .ok r) :
    r.Legal := by
  obtain ⟨es, -, -, hlegal, rfl⟩ := Blob.exists_entries_of_decode h
  exact legal_ofEntries hlegal

/-! ## Written forms tell requests apart -/

/-- What reads back is written in one way only. -/
theorem injective_of_read {α : Type} {read : Bytes → Except Failure α} {write : α → Bytes}
    (h : ∀ {value a}, read value = .ok a ↔ write a = value) : Function.Injective write := by
  intro a b hab
  have ha : read (write a) = .ok a := h.mpr rfl
  have hb : read (write a) = .ok b := h.mpr hab.symm
  rw [ha] at hb
  exact Except.ok.inj hb

theorem Entry.keysValue_injective : Function.Injective keysValue := by
  intro a b hab
  have hlength : a.length = b.length := by
    have := congrArg List.length hab
    rw [keysValue_length, keysValue_length] at this
    omega
  exact flatMap_inj (fun key => key.length_eq) (fun _ _ => XOnlyKey.ext) hlength hab

theorem Entry.wordValue_injective : Function.Injective wordValue :=
  injective_of_read (@readWord_eq_ok_iff .timelock)

theorem Entry.byteValue_injective : Function.Injective fun n : UInt8 => [n] :=
  injective_of_read (@readByte_eq_ok_iff .covenantQuorum)

theorem Request.eq_of_written {r s : Request}
    (h : ∀ tag : Tag, ¬ tag.IsCount → r.written tag = s.written tag)
    (hr : ∀ path ∈ r.derivationPath, path.Packed) (hs : ∀ path ∈ s.derivationPath, path.Packed) :
    r = s := by
  have hof (tag : Tag) (htag : tag ≠ .providerCount ∧ tag ≠ .covenantCount) :
      r.written tag = s.written tag := h tag (fun hcount => hcount.elim htag.1 htag.2)
  have hpath : r.derivationPath = s.derivationPath := by
    have hbytes : r.derivationPath.map KeyPath.bytes = s.derivationPath.map KeyPath.bytes :=
      hof .derivationPath (by decide)
    cases hp : r.derivationPath with
    | none =>
        rw [hp] at hbytes
        exact (Option.map_eq_none_iff.mp hbytes.symm).symm
    | some p =>
        rw [hp] at hbytes
        obtain ⟨q, hq, hpq⟩ := Option.map_eq_some_iff.mp hbytes.symm
        rw [hq, (hr p hp).eq_of_bytes (hs q hq) hpq.symm]
  have haction : r.action = s.action :=
    Option.map_injective (injective_of_read (@Entry.readAction_eq_ok_iff .action))
      (hof .action (by decide))
  have hmessageKey : r.messageKey = s.messageKey :=
    Option.map_injective (injective_of_read (@Entry.readMessageKey_eq_ok_iff .messageKey))
      (hof .messageKey (by decide))
  have hproviders := Option.map_injective Entry.keysValue_injective (hof .providers (by decide))
  have hcovenant := Option.map_injective Entry.keysValue_injective (hof .covenantKeys (by decide))
  have hquorum := Option.map_injective Entry.byteValue_injective (hof .covenantQuorum (by decide))
  have hstaker := Option.map_injective (fun _ _ => XOnlyKey.ext) (hof .stakerKey (by decide))
  have htxid := Option.map_injective (fun _ _ => Txid.ext) (hof .txid (by decide))
  have htimelock := Option.map_injective Entry.wordValue_injective (hof .timelock (by decide))
  have hslashing :=
    Option.map_injective Entry.wordValue_injective (hof .slashingFeeLimit (by decide))
  have hunbonding :=
    Option.map_injective Entry.wordValue_injective (hof .unbondingFeeLimit (by decide))
  have hmessage : r.message = s.message := hof .message (by decide)
  have hburn : r.burnAddress = s.burnAddress := hof .burnAddress (by decide)
  cases r
  cases s
  simp only [Request.mk.injEq]
  exact ⟨haction, hproviders, hcovenant, hquorum, hstaker, htimelock, hslashing, hunbonding, hburn,
    hmessage, hmessageKey, htxid, hpath⟩

/-! ## Decoding -/

theorem Entry.findSome?_eq_valueIn {count? : Entry → Option UInt8} {tag : Tag}
    (h : ∀ e : Entry, (count? e).map (fun n => [n]) = if e.tag = tag then some e.value else none)
    (es : List Entry) : (es.findSome? count?).map (fun n => [n]) = valueIn es tag := by
  induction es with
  | nil => rfl
  | cons e es ih =>
      have he := h e
      rw [valueIn_cons, List.findSome?_cons]
      cases hcount : count? e with
      | none =>
          rw [hcount] at he
          split at he
          · cases he
          · rename_i htag
            rw [if_neg htag, ih]
      | some n =>
          rw [hcount] at he
          split at he
          · rename_i htag
            rw [if_pos htag]
            exact he
          · cases he

theorem Entry.valueIn_providerCount (es : List Entry) :
    (es.findSome? providerCount?).map (fun n => [n]) = valueIn es .providerCount :=
  findSome?_eq_valueIn (fun e => by cases e <;> rfl) es

theorem Entry.valueIn_covenantCount (es : List Entry) :
    (es.findSome? covenantCount?).map (fun n => [n]) = valueIn es .covenantCount :=
  findSome?_eq_valueIn (fun e => by cases e <;> rfl) es

theorem Request.checkCount_eq_ok_iff {field : Field} {declared : Option UInt8}
    {keys : Option (List XOnlyKey)} :
    checkCount field declared keys = .ok () ↔
      ∀ value ∈ declared.map (fun n => [n]), ∀ list ∈ keys, ofBeBytes value = list.length := by
  cases declared <;> cases keys <;> simp [checkCount, ofBeBytes, ofLeBytes]

theorem Request.checkQuorum_eq_ok_iff {r : Request} :
    r.checkQuorum = .ok () ↔
      ∀ n ∈ r.covenantQuorum, ∀ keys ∈ r.covenantKeys, n.toNat ≤ keys.length := by
  unfold checkQuorum
  cases r.covenantQuorum <;> cases r.covenantKeys <;> simp

theorem Blob.exists_entries {records : List Record}
    (h : ∀ record ∈ records, ∃ tag : Tag, tag.code = record.tag ∧ tag.Allows record.value) :
    ∃ es : List Entry, es.map Entry.record = records ∧ ∀ e ∈ es, e.Legal := by
  induction records with
  | nil => exact ⟨[], rfl, fun _ he => by cases he⟩
  | cons record records ih =>
      obtain ⟨tag, htag, hallows⟩ := h record List.mem_cons_self
      obtain ⟨e, rfl, hvalue, hlegal⟩ := Tag.allows_iff.mp hallows
      obtain ⟨es, hes, hrest⟩ := ih fun r hr => h r (List.mem_cons_of_mem _ hr)
      refine ⟨e :: es, ?_, List.forall_mem_cons.mpr ⟨hlegal, hrest⟩⟩
      rw [List.map_cons, hes, Entry.record, htag, hvalue]

theorem Blob.nodup_tag_map_record_iff {es : List Entry} :
    ((es.map Entry.record).map Record.tag).Nodup ↔ (es.map Entry.tag).Nodup := by
  have hmap : (es.map Entry.record).map Record.tag = (es.map Entry.tag).map Tag.code := by
    rw [List.map_map, List.map_map]
    rfl
  rw [hmap, List.nodup_map_iff fun _ _ => Tag.code_inj]

theorem Blob.spells_map_record_iff {blob : Bytes} {es : List Entry} {r : Request}
    (hlegal : ∀ e ∈ es, e.Legal) :
    Spells blob (es.map Entry.record) r ↔
      blob = framedEntries es ∧ (es.map Entry.tag).Nodup ∧ r = .ofEntries es ∧
        Request.checkCount .finalityProviders (es.findSome? Entry.providerCount?)
          r.finalityProviders = .ok () ∧
        Request.checkCount .covenantKeys (es.findSome? Entry.covenantCount?)
          r.covenantKeys = .ok () ∧
        r.checkQuorum = .ok () := by
  have hrequest : (Request.ofEntries es).Legal := Request.legal_ofEntries hlegal
  simp only [Request.checkCount_eq_ok_iff, Request.checkQuorum_eq_ok_iff,
    Entry.valueIn_providerCount, Entry.valueIn_covenantCount]
  constructor
  · intro h
    have hdistinct := nodup_tag_map_record_iff.mp h.distinct
    refine ⟨by rw [h.framed, List.flatMap_map]; rfl, hdistinct, ?_, ?_, ?_, h.quorum⟩
    · refine Request.eq_of_written (fun tag htag => ?_) h.packed hrequest.derivationPath
      rw [h.fields tag htag, valueOf_map_record, Request.written_ofEntries hdistinct htag]
    · simpa only [valueOf_map_record] using h.providerCount
    · simpa only [valueOf_map_record] using h.covenantCount
  · rintro ⟨rfl, hdistinct, hr, hp, hc, hq⟩
    constructor
    case framed => rw [List.flatMap_map]; rfl
    case announceable =>
      intro record hrecord
      obtain ⟨e, he, rfl⟩ := List.mem_map.mp hrecord
      exact (hlegal e he).announceable
    case distinct => exact nodup_tag_map_record_iff.mpr hdistinct
    case allowed =>
      intro record hrecord
      obtain ⟨e, he, rfl⟩ := List.mem_map.mp hrecord
      exact ⟨e.tag, rfl, Tag.allows_iff.mpr ⟨e, rfl, rfl, hlegal e he⟩⟩
    case providerCount => simpa only [valueOf_map_record] using hp
    case covenantCount => simpa only [valueOf_map_record] using hc
    case quorum => exact hq
    case fields =>
      intro tag htag
      rw [hr, valueOf_map_record, Request.written_ofEntries hdistinct htag]
    case packed =>
      rw [hr]
      exact hrequest.derivationPath

/-- Decoding gives a request exactly when the blob is a list of complete records with different tags
and allowed values that agree with each other and spell the request. -/
theorem Blob.decode_eq_ok_iff (blob : Bytes) (r : Request) :
    decode blob = .ok r ↔ ∃ records, Spells blob records r := by
  simp only [decode, bind_eq_ok_iff, entries_eq_ok_iff, pure_eq_ok_iff]
  constructor
  · rintro ⟨es, ⟨hblob, hdistinct, hlegal⟩, _, hproviders, _, hcovenant, _, hquorum, rfl⟩
    exact ⟨es.map Entry.record, (spells_map_record_iff hlegal).mpr
      ⟨hblob, hdistinct, rfl, hproviders, hcovenant, hquorum⟩⟩
  · rintro ⟨records, h⟩
    obtain ⟨es, rfl, hlegal⟩ := exists_entries h.allowed
    obtain ⟨hblob, hdistinct, rfl, hproviders, hcovenant, hquorum⟩ :=
      (spells_map_record_iff hlegal).mp h
    exact ⟨es, ⟨hblob, hdistinct, hlegal⟩, (), hproviders, (), hcovenant, (), hquorum, rfl⟩

end CovenantStaking

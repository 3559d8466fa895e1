import CovenantStaking.Proofs.Blob.Order
import CovenantStaking.Proofs.Blob.Refusal

/-!
# The first fault of a blob

A scan reads records from the left as long as they are complete, new and allowed, and stops at the
first that is not, with the cause that this place gives. Only a blob that is scanned to its end is
asked whether its counts and its quorum agree with its lists. Nothing else makes decoding fail.
-/

namespace CovenantStaking

theorem Entry.keysValue_count (keys : List XOnlyKey) :
    (keysValue keys).length / 32 = keys.length := by
  rw [keysValue_length, Nat.mul_div_cancel_left _ (by decide)]

theorem Record.framed_length (r : Record) : r.framed.length = 3 + r.value.length := by
  simp only [framed, List.length_cons, List.length_append, beBytes_length]
  omega

namespace Blob

variable {offset : Nat} {seen : List UInt8} {bytes rest : Bytes} {cause : Failure}

/-! ## Where a scan stops -/

/-- A complete record ends the scan, whatever comes after it: its tag was there before, or else its
tag or its value is not allowed. -/
inductive Bars (seen : List UInt8) (r : Record) : Failure → Prop
  | repeated (h : r.tag ∈ seen) : Bars seen r (.malformed (.duplicateTag r.tag))
  | refused {cause : Failure} (hnew : r.tag ∉ seen) (h : r.Refused cause) : Bars seen r cause

/-- What is wrong with the first of some bytes that follow `offset` bytes with these tags. -/
inductive StopsAt (offset : Nat) (seen : List UInt8) (bytes : Bytes) : Failure → Prop
  | truncatedHeader (hne : bytes ≠ []) (hshort : bytes.length < 3) :
      StopsAt offset seen bytes (.malformed (.truncatedHeader offset))
  | truncatedValue {tag high low : UInt8} {rest : Bytes}
      (hbytes : bytes = tag :: high :: low :: rest)
      (hshort : rest.length < ofBeBytes [high, low]) :
      StopsAt offset seen bytes
        (.malformed (.truncatedValue tag (ofBeBytes [high, low]) rest.length))
  | record {r : Record} {rest : Bytes} {cause : Failure} (hbytes : bytes = r.framed ++ rest)
      (hcomplete : r.Announceable) (h : Bars seen r cause) : StopsAt offset seen bytes cause

theorem Bars.congr {seen' : List UInt8} {r : Record} (hseen : ∀ tag, tag ∈ seen ↔ tag ∈ seen')
    (h : Bars seen r cause) : Bars seen' r cause := by
  cases h with
  | repeated h => exact .repeated ((hseen r.tag).mp h)
  | refused hnew h => exact .refused (fun hmem => hnew ((hseen r.tag).mpr hmem)) h

theorem StopsAt.congr {seen' : List UInt8} (hseen : ∀ tag, tag ∈ seen ↔ tag ∈ seen')
    (h : StopsAt offset seen bytes cause) : StopsAt offset seen' bytes cause := by
  cases h with
  | truncatedHeader hne hshort => exact .truncatedHeader hne hshort
  | truncatedValue hbytes hshort => exact .truncatedValue hbytes hshort
  | record hbytes hcomplete h => exact .record hbytes hcomplete (h.congr hseen)

theorem bars_iff {r : Record} :
    Bars seen r cause ↔
      (r.tag ∈ seen ∧ .malformed (.duplicateTag r.tag) = cause) ∨
        (r.tag ∉ seen ∧ Entry.ofRecord r = .error cause) := by
  rw [Entry.ofRecord_eq_error_iff]
  constructor
  · intro h
    cases h with
    | repeated h => exact .inl ⟨h, rfl⟩
    | refused hnew h => exact .inr ⟨hnew, h⟩
  · rintro (⟨h, rfl⟩ | ⟨hnew, h⟩)
    · exact .repeated h
    · exact .refused hnew h

theorem stopsAt_of_firstRecord (hne : bytes ≠ []) (h : firstRecord offset bytes = .error cause) :
    StopsAt offset seen bytes cause := by
  unfold firstRecord at h
  split at h
  · dsimp only at h
    split at h
    · rename_i hshort
      cases h
      exact .truncatedValue rfl hshort
    · cases h
  · rename_i hlong
    cases h
    refine .truncatedHeader hne ?_
    match bytes, hlong with
    | [], _ | [_], _ | [_, _], _ => simp
    | tag :: high :: low :: rest, hlong => exact absurd rfl (hlong tag high low rest)

theorem stopsAt_iff :
    StopsAt offset seen bytes cause ↔ bytes ≠ [] ∧
      (firstRecord offset bytes = .error cause ∨
        ∃ r rest, firstRecord offset bytes = .ok (r, rest) ∧ Bars seen r cause) := by
  constructor
  · intro h
    cases h with
    | truncatedHeader hne hshort =>
        refine ⟨hne, .inl ?_⟩
        match bytes, hshort with
        | [], _ | [_], _ | [_, _], _ => rfl
    | truncatedValue hbytes hshort =>
        subst hbytes
        exact ⟨nofun, .inl (if_pos hshort)⟩
    | @record r rest _ hbytes hcomplete h =>
        refine ⟨?_, .inr ⟨r, rest, firstRecord_eq_ok_iff.mpr ⟨hcomplete, hbytes⟩, h⟩⟩
        rw [hbytes]
        exact nofun
  · rintro ⟨hne, hfault | ⟨r, rest, hfirst, h⟩⟩
    · exact stopsAt_of_firstRecord hne hfault
    · obtain ⟨hcomplete, hbytes⟩ := firstRecord_eq_ok_iff.mp hfirst
      exact .record hbytes hcomplete h

/-- One step of a scan: it stops at the first record, or takes it and goes on. -/
theorem scan_eq_error_iff :
    scan offset seen bytes = .error cause ↔
      StopsAt offset seen bytes cause ∨
        ∃ r rest e, firstRecord offset bytes = .ok (r, rest) ∧ r.tag ∉ seen ∧
          Entry.ofRecord r = .ok e ∧
          scan (offset + 3 + r.value.length) (r.tag :: seen) rest = .error cause := by
  rw [scan, stopsAt_iff]
  split
  · rename_i hnil
    subst hnil
    simp [firstRecord]
  · rename_i hne
    split
    · rename_i hfault
      simp [hfault, hne]
    · rename_i r rest hfirst
      simp only [hfirst, bars_iff, bind_eq_error_iff, ensure_eq_error_iff, ensure_eq_ok_iff,
        pure_ne_error, and_false, exists_false, or_false, exists_const, Decidable.not_not]
      constructor
      · rintro (hseen | ⟨hnew, hrefused | ⟨e, hof, hscan⟩⟩)
        · exact .inl ⟨hne, .inr ⟨r, rest, rfl, .inl hseen⟩⟩
        · exact .inl ⟨hne, .inr ⟨r, rest, rfl, .inr ⟨hnew, hrefused⟩⟩⟩
        · exact .inr ⟨r, rest, e, rfl, hnew, hof, hscan⟩
      · rintro (⟨_, hfault | ⟨_, _, hsame, hbars⟩⟩ | ⟨_, _, e, hsame, hnew, hof, hscan⟩)
        · cases hfault
        · cases hsame
          rcases hbars with hseen | ⟨hnew, hrefused⟩
          · exact .inl hseen
          · exact .inr ⟨hnew, .inl hrefused⟩
        · cases hsame
          exact .inr ⟨hnew, .inr ⟨e, hof, hscan⟩⟩

/-- The tags that a scan has met after some entries. -/
def tagsAfter (seen : List UInt8) (es : List Entry) : List UInt8 :=
  (es.map fun e => e.tag.code).reverse ++ seen

theorem tagsAfter_cons (e : Entry) (es : List Entry) :
    tagsAfter seen (e :: es) = tagsAfter (e.tag.code :: seen) es := by
  simp [tagsAfter]

theorem framedEntries_cons (e : Entry) (es : List Entry) :
    framedEntries (e :: es) = e.record.framed ++ framedEntries es :=
  List.flatMap_cons

theorem offset_cons (offset : Nat) (e : Entry) (es : List Entry) :
    offset + (framedEntries (e :: es)).length =
      offset + 3 + e.record.value.length + (framedEntries es).length := by
  rw [framedEntries_cons, List.length_append, Record.framed_length]
  omega

/-- Where a scan stops after entries that it takes, it stops from the start of these entries too. -/
theorem scan_of_stopsAt {es : List Entry} (htaken : Taken seen es)
    (h : StopsAt (offset + (framedEntries es).length) (tagsAfter seen es) rest cause) :
    scan offset seen (framedEntries es ++ rest) = .error cause := by
  induction es generalizing offset seen with
  | nil => exact scan_eq_error_iff.mpr (.inl h)
  | cons e es ih =>
      obtain ⟨⟨hlegal, hnew⟩, hes⟩ := taken_cons_iff.mp htaken
      rw [tagsAfter_cons, offset_cons] at h
      rw [framedEntries_cons, List.append_assoc, scan_eq_error_iff]
      exact .inr ⟨e.record, framedEntries es ++ rest, e,
        firstRecord_eq_ok_iff.mpr ⟨hlegal.announceable, rfl⟩, hnew,
        Entry.ofRecord_eq_ok_iff.mpr ⟨rfl, hlegal⟩, ih hes h⟩

/-- A scan that fails has taken entries up to the place where it stops. -/
theorem exists_stopsAt_of_scan (h : scan offset seen bytes = .error cause) :
    ∃ es rest, bytes = framedEntries es ++ rest ∧ Taken seen es ∧
      StopsAt (offset + (framedEntries es).length) (tagsAfter seen es) rest cause := by
  -- on the length of the bytes: a record that is taken leaves fewer
  induction hlength : bytes.length using Nat.strongRecOn generalizing offset seen bytes with
  | ind n ih =>
      rcases scan_eq_error_iff.mp h with hstop | ⟨r, rest, e, hfirst, hnew, hof, hscan⟩
      · exact ⟨[], bytes, rfl, ⟨List.nodup_nil, nofun⟩, hstop⟩
      · obtain ⟨es, tail, rfl, htaken, hstop⟩ :=
          ih _ (hlength ▸ firstRecord_length hfirst) hscan rfl
        obtain ⟨_, hbytes⟩ := firstRecord_eq_ok_iff.mp hfirst
        obtain ⟨rfl, hlegal⟩ := Entry.ofRecord_eq_ok_iff.mp hof
        refine ⟨e :: es, tail, ?_, taken_cons_iff.mpr ⟨⟨hlegal, hnew⟩, htaken⟩, ?_⟩
        · rw [hbytes, framedEntries_cons, List.append_assoc]
        · rw [tagsAfter_cons, offset_cons]
          exact hstop

/-! ## What records say together -/

/-- A count was sent, and the list that it announces, and they disagree. -/
def Miscounts (records : List Record) (count list : Tag) (declared actual : Nat) : Prop :=
  ∃ number keys, valueOf records count = some number ∧ valueOf records list = some keys ∧
    ofBeBytes number = declared ∧ keys.length / 32 = actual ∧ declared ≠ actual

/-- What is wrong with records that are all allowed: the first of three that applies. -/
inductive Disagrees (records : List Record) : Failure → Prop
  | providers {declared actual : Nat}
      (h : Miscounts records .providerCount .providers declared actual) :
      Disagrees records (.malformed (.countMismatch .finalityProviders declared actual))
  | covenantKeys {declared actual : Nat}
      (hproviders : ∀ d a, ¬Miscounts records .providerCount .providers d a)
      (h : Miscounts records .covenantCount .covenantKeys declared actual) :
      Disagrees records (.malformed (.countMismatch .covenantKeys declared actual))
  | quorum {needed : UInt8} {keys : Bytes}
      (hproviders : ∀ d a, ¬Miscounts records .providerCount .providers d a)
      (hcovenant : ∀ d a, ¬Miscounts records .covenantCount .covenantKeys d a)
      (hneeded : valueOf records .covenantQuorum = some [needed])
      (hkeys : valueOf records .covenantKeys = some keys) (h : keys.length / 32 < needed.toNat) :
      Disagrees records (.quorum needed (keys.length / 32))

end Blob

namespace Request

variable {es : List Entry} {cause : Failure}

theorem checkCount_eq_error_iff {field : Field} {declared : Option UInt8}
    {keys : Option (List XOnlyKey)} :
    checkCount field declared keys = .error cause ↔
      ∃ n list, declared = some n ∧ keys = some list ∧ n.toNat ≠ list.length ∧
        .malformed (.countMismatch field n.toNat list.length) = cause := by
  cases declared <;> cases keys <;> simp [checkCount]

theorem checkQuorum_eq_error_iff {r : Request} :
    r.checkQuorum = .error cause ↔
      ∃ n keys, r.covenantQuorum = some n ∧ r.covenantKeys = some keys ∧ keys.length < n.toNat ∧
        .quorum n keys.length = cause := by
  unfold checkQuorum
  cases r.covenantQuorum <;> cases r.covenantKeys <;> simp

section

variable {field : Field} {count list : Tag} {count? : Entry → Option UInt8}
  {keys : Option (List XOnlyKey)}

theorem checkCount_eq_error_iff_miscounts
    (hcount : ∀ es : List Entry, (es.findSome? count?).map (fun n => [n]) = Entry.valueIn es count)
    (hkeys : keys.map Entry.keysValue = Entry.valueIn es list) :
    checkCount field (es.findSome? count?) keys = .error cause ↔
      ∃ declared actual, Blob.Miscounts (es.map Entry.record) count list declared actual ∧
        .malformed (.countMismatch field declared actual) = cause := by
  have hnumber (n : UInt8) : ofBeBytes [n] = n.toNat := by simp [ofBeBytes, ofLeBytes]
  simp only [checkCount_eq_error_iff, Blob.Miscounts, Blob.valueOf_map_record, ← hcount, ← hkeys,
    Option.map_eq_some_iff]
  constructor
  · rintro ⟨n, ks, hn, hks, hne, rfl⟩
    exact ⟨_, _, ⟨_, _, ⟨n, hn, rfl⟩, ⟨ks, hks, rfl⟩, hnumber n, Entry.keysValue_count ks, hne⟩,
      rfl⟩
  · rintro ⟨_, _, ⟨_, _, ⟨n, hn, rfl⟩, ⟨ks, hks, rfl⟩, rfl, rfl, hne⟩, rfl⟩
    rw [hnumber, Entry.keysValue_count] at hne ⊢
    exact ⟨n, ks, hn, hks, hne, rfl⟩

theorem checkCount_eq_ok_iff_not_miscounts {u : Unit}
    (hcount : ∀ es : List Entry, (es.findSome? count?).map (fun n => [n]) = Entry.valueIn es count)
    (hkeys : keys.map Entry.keysValue = Entry.valueIn es list) :
    checkCount field (es.findSome? count?) keys = .ok u ↔
      ∀ declared actual, ¬Blob.Miscounts (es.map Entry.record) count list declared actual := by
  simp only [eq_ok_iff_ne_error, ne_eq, checkCount_eq_error_iff_miscounts hcount hkeys, not_exists,
    not_and]
  constructor
  · intro h declared actual hcounts
    exact h _ declared actual hcounts rfl
  · intro h _ declared actual hcounts
    exact absurd hcounts (h declared actual)

end

end Request

namespace Blob

variable {es : List Entry} {cause : Failure}

/-- A blob that is scanned to its end fails for what its records say together. -/
theorem decode_framedEntries_eq_error_iff (hdistinct : (es.map Entry.tag).Nodup)
    (hlegal : ∀ e ∈ es, e.Legal) :
    decode (framedEntries es) = .error cause ↔ Disagrees (es.map Entry.record) cause := by
  have hwritten (tag : Tag) (htag : ¬tag.IsCount) :
      (Request.ofEntries es).written tag = Entry.valueIn es tag :=
    Request.written_ofEntries hdistinct htag
  have hproviders : (Request.ofEntries es).finalityProviders.map Entry.keysValue =
      Entry.valueIn es .providers := hwritten .providers (by simp [Tag.IsCount])
  have hcovenant : (Request.ofEntries es).covenantKeys.map Entry.keysValue =
      Entry.valueIn es .covenantKeys := hwritten .covenantKeys (by simp [Tag.IsCount])
  have hquorum : (Request.ofEntries es).covenantQuorum.map (fun n => [n]) =
      Entry.valueIn es .covenantQuorum := hwritten .covenantQuorum (by simp [Tag.IsCount])
  rw [decode_framedEntries hdistinct hlegal]
  simp only [bind_eq_error_iff, pure_ne_error, and_false, exists_false, or_false, exists_const,
    Request.checkCount_eq_error_iff_miscounts Entry.valueIn_providerCount hproviders,
    Request.checkCount_eq_ok_iff_not_miscounts Entry.valueIn_providerCount hproviders,
    Request.checkCount_eq_error_iff_miscounts Entry.valueIn_covenantCount hcovenant,
    Request.checkCount_eq_ok_iff_not_miscounts Entry.valueIn_covenantCount hcovenant,
    Request.checkQuorum_eq_error_iff]
  constructor
  · rintro (⟨_, _, h, rfl⟩ | ⟨hp, ⟨_, _, h, rfl⟩ | ⟨hc, n, keys, hn, hkeys, h, rfl⟩⟩)
    · exact .providers h
    · exact .covenantKeys hp h
    · rw [hn, ← valueOf_map_record] at hquorum
      rw [hkeys, ← valueOf_map_record] at hcovenant
      rw [← Entry.keysValue_count keys] at h ⊢
      exact .quorum hp hc hquorum.symm hcovenant.symm h
  · intro h
    cases h with
    | providers h => exact .inl ⟨_, _, h, rfl⟩
    | covenantKeys hp h => exact .inr ⟨hp, .inl ⟨_, _, h, rfl⟩⟩
    | quorum hp hc hneeded hkeys h =>
        rw [valueOf_map_record, ← hquorum] at hneeded
        rw [valueOf_map_record, ← hcovenant] at hkeys
        obtain ⟨_, hn, ⟨⟩⟩ := Option.map_eq_some_iff.mp hneeded
        obtain ⟨keys, hsent, rfl⟩ := Option.map_eq_some_iff.mp hkeys
        rw [Entry.keysValue_count] at h ⊢
        exact .inr ⟨hp, .inr ⟨hc, _, keys, hn, hsent, h, rfl⟩⟩

/-! ## Every fault -/

/-- Complete records with different tags, each with a value that its tag allows. -/
structure Clean (records : List Record) : Prop where
  announceable : ∀ record ∈ records, record.Announceable
  distinct : (records.map Record.tag).Nodup
  allowed : ∀ record ∈ records, ∃ tag : Tag, tag.code = record.tag ∧ tag.Allows record.value

/-- What is wrong with a blob: what follows its clean records, or if nothing does, what these say
together. -/
inductive Faulty (blob : Bytes) : Failure → Prop
  | scan {records : List Record} {rest : Bytes} {cause : Failure} (hclean : Clean records)
      (hblob : blob = records.flatMap Record.framed ++ rest)
      (h : StopsAt (records.flatMap Record.framed).length (records.map Record.tag) rest cause) :
      Faulty blob cause
  | whole {records : List Record} {cause : Failure} (hclean : Clean records)
      (hblob : blob = records.flatMap Record.framed) (h : Disagrees records cause) :
      Faulty blob cause

theorem clean_iff {records : List Record} :
    Clean records ↔ ∃ es : List Entry,
      es.map Entry.record = records ∧ (es.map Entry.tag).Nodup ∧ ∀ e ∈ es, e.Legal := by
  constructor
  · intro h
    obtain ⟨es, rfl, hlegal⟩ := exists_entries h.allowed
    exact ⟨es, rfl, nodup_tag_map_record_iff.mp h.distinct, hlegal⟩
  · rintro ⟨es, rfl, hdistinct, hlegal⟩
    refine ⟨(framedAs_framedEntries hlegal).announceable, nodup_tag_map_record_iff.mpr hdistinct,
      ?_⟩
    intro record hrecord
    obtain ⟨e, he, rfl⟩ := List.mem_map.mp hrecord
    exact ⟨e.tag, rfl, Tag.allows_iff.mpr ⟨e, rfl, rfl, hlegal e he⟩⟩

theorem mem_tagsAfter_iff {tag : UInt8} :
    tag ∈ tagsAfter [] es ↔ tag ∈ (es.map Entry.record).map Record.tag := by
  simp [tagsAfter, Entry.record]

theorem entries_eq_error_iff {blob : Bytes} :
    entries blob = .error cause ↔ ∃ records rest, Clean records ∧
      blob = records.flatMap Record.framed ++ rest ∧
      StopsAt (records.flatMap Record.framed).length (records.map Record.tag) rest cause := by
  constructor
  · intro h
    obtain ⟨es, rest, hblob, htaken, hstop⟩ := exists_stopsAt_of_scan h
    refine ⟨_, rest, clean_iff.mpr ⟨es, rfl, taken_nil_iff.mp htaken⟩, ?_, ?_⟩
    · rw [hblob, framedEntries, List.flatMap_map]
    · rw [List.flatMap_map]
      rw [Nat.zero_add] at hstop
      exact hstop.congr fun _ => mem_tagsAfter_iff
  · rintro ⟨records, rest, hclean, rfl, hstop⟩
    obtain ⟨es, rfl, hes⟩ := clean_iff.mp hclean
    rw [List.flatMap_map] at hstop ⊢
    refine scan_of_stopsAt (taken_nil_iff.mpr hes) ?_
    rw [Nat.zero_add]
    exact hstop.congr fun _ => mem_tagsAfter_iff.symm

theorem decode_eq_error_of_entries {blob : Bytes} (h : entries blob = .error cause) :
    decode blob = .error cause := by
  rw [decode, h]
  rfl

theorem decode_eq_error_iff_faulty {blob : Bytes} :
    decode blob = .error cause ↔ Faulty blob cause := by
  constructor
  · intro h
    cases hentries : entries blob with
    | error cause' =>
        cases (decode_eq_error_of_entries hentries).symm.trans h
        obtain ⟨records, rest, hclean, hblob, hstop⟩ := entries_eq_error_iff.mp hentries
        exact .scan hclean hblob hstop
    | ok es =>
        obtain ⟨rfl, hdistinct, hlegal⟩ := entries_eq_ok_iff.mp hentries
        refine .whole (clean_iff.mpr ⟨es, rfl, hdistinct, hlegal⟩) ?_
          ((decode_framedEntries_eq_error_iff hdistinct hlegal).mp h)
        rw [framedEntries, List.flatMap_map]
  · intro h
    cases h with
    | scan hclean hblob hstop =>
        exact decode_eq_error_of_entries (entries_eq_error_iff.mpr ⟨_, _, hclean, hblob, hstop⟩)
    | whole hclean hblob h =>
        obtain ⟨es, rfl, hdistinct, hlegal⟩ := clean_iff.mp hclean
        rw [hblob, List.flatMap_map]
        exact (decode_framedEntries_eq_error_iff hdistinct hlegal).mpr h

theorem not_faulty_path {blob : Bytes} {fault : PathFault} : ¬Faulty blob (.path fault) := by
  intro h
  cases h with
  | scan _ _ hstop =>
      cases hstop with
      | record _ _ hbars =>
          cases hbars with
          | refused _ hrefused =>
              cases hrefused with
              | value _ hvalue => cases hvalue
  | whole _ _ h => cases h

/-- Decoding fails exactly for the first fault of a blob. A record that ends the scan does so
whatever comes after it, and no blob fails because its path cannot be made. -/
theorem decode_eq_error_iff (blob : Bytes) (cause : Failure) :
    (decode blob = .error cause ↔ Faulty blob cause) ∧
      (∀ records r rest, Clean records → r.Announceable → Bars (records.map Record.tag) r cause →
        decode (records.flatMap Record.framed ++ (r.framed ++ rest)) = .error cause) ∧
      ∀ fault, decode blob ≠ .error (.path fault) := by
  refine ⟨decode_eq_error_iff_faulty, ?_, ?_⟩
  · intro records r rest hclean hcomplete hbars
    exact decode_eq_error_iff_faulty.mpr (.scan hclean rfl (.record rfl hcomplete hbars))
  · intro fault h
    exact not_faulty_path (decode_eq_error_iff_faulty.mp h)

/-- A second action: its code is unknown and too few bytes come after it, but it is a second one. -/
theorem decode_second_action :
    let first : Record := ⟨0x77, [1]⟩
    let second : Record := ⟨0x77, [9]⟩
    let cause : Failure := .malformed (.duplicateTag 0x77)
    Clean [first] ∧ second.Announceable ∧ Bars [0x77] second cause ∧
      decode [0x77, 0, 1, 1, 0x77, 0, 1, 9, 0x42] = .error cause := by
  intro first second cause
  have hclean : Clean [first] := by
    refine clean_iff.mpr ⟨[.action .staking], rfl, by decide, ?_⟩
    intro e he
    rw [List.mem_singleton.mp he]
    trivial
  have hcomplete : second.Announceable := by
    show [9].length < 2 ^ 16
    decide
  have hbars : Bars [0x77] second cause := .repeated (by decide)
  have hblob : [0x77, 0, 1, 1, 0x77, 0, 1, 9, 0x42] =
      [first].flatMap Record.framed ++ (second.framed ++ [0x42]) := by decide
  obtain ⟨_, hstops, _⟩ := decode_eq_error_iff [] cause
  rw [hblob]
  exact ⟨hclean, hcomplete, hbars, hstops [first] second [0x42] hclean hcomplete hbars⟩

end Blob

end CovenantStaking

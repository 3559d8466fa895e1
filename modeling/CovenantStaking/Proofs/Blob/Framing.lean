import CovenantStaking.Blob.Reading
import CovenantStaking.Proofs.Blob.Value

/-!
# Records one after the other

A scan succeeds exactly on the written forms of legal entries whose tags differ.
-/

namespace CovenantStaking

/-! ## One record -/

/-- A complete record: the tag, the length of the value in two bytes, the value. -/
def Record.framed (r : Record) : Bytes :=
  r.tag :: (beBytes 2 r.value.length ++ r.value)

/-- The length of the value can be written in two bytes. -/
def Record.Announceable (r : Record) : Prop :=
  r.value.length < 2 ^ 16

/-- No legal value is longer than a list of the most keys. -/
theorem Entry.Legal.announceable {e : Entry} (h : e.Legal) : e.record.Announceable := by
  simp only [Record.Announceable, Entry.record]
  cases e with
  | providers keys | covenantKeys keys =>
      have hcount : keys.length ≤ 16 := h
      simp only [Entry.value, keysValue_length]
      omega
  | message text =>
      have hlength : text.length ≤ 40 := h
      simp only [Entry.value]
      omega
  | burnAddress script =>
      have hlength : script.length ≤ 32 := h.2
      simp only [Entry.value]
      omega
  | derivationPath path =>
      obtain ⟨words, hdepth, _, rfl⟩ := h
      have hlength : words.length ≤ 10 := hdepth
      simp only [Entry.value, KeyPath.bytes_ofShort, wordBytes_length]
      omega
  | messageKey key => cases key <;> simp [Entry.value, messageKeyValue]
  | _ => simp [Entry.value, wordValue]

namespace Blob

theorem firstRecord_eq_ok_iff {offset : Nat} {bytes rest : Bytes} {r : Record} :
    firstRecord offset bytes = .ok (r, rest) ↔ r.Announceable ∧ bytes = r.framed ++ rest := by
  constructor
  · intro h
    unfold firstRecord at h
    split at h
    · rename_i tag high low tail
      dsimp only at h
      split at h
      · cases h
      · rename_i hfits
        cases h
        have hlt : ofBeBytes [high, low] < 256 ^ 2 := ofBeBytes_lt [high, low]
        have hlength : (tail.take (ofBeBytes [high, low])).length = ofBeBytes [high, low] := by
          rw [List.length_take]
          omega
        have hheader : beBytes 2 (ofBeBytes [high, low]) = [high, low] :=
          beBytes_ofBeBytes [high, low]
        refine ⟨?_, ?_⟩
        · rw [Record.Announceable, hlength]
          omega
        · rw [Record.framed, hlength, hheader]
          simp
    · cases h
  · rintro ⟨hfits, rfl⟩
    obtain ⟨high, low, hheader⟩ : ∃ high low, beBytes 2 r.value.length = [high, low] :=
      ⟨_, _, rfl⟩
    have hread : ofBeBytes [high, low] = r.value.length := by
      rw [← hheader]
      exact ofBeBytes_beBytes hfits
    rw [Record.framed, hheader]
    simp [firstRecord, hread]

/-! ## Scans -/

theorem scan_eq_ok_nil_iff {offset : Nat} {seen : List UInt8} {bytes : Bytes} :
    scan offset seen bytes = .ok [] ↔ bytes = [] := by
  constructor
  · intro h
    rw [scan] at h
    split at h
    · assumption
    · split at h
      · cases h
      · simp at h
  · rintro rfl
    rw [scan, if_pos rfl]

theorem scan_eq_ok_cons_iff {offset : Nat} {seen : List UInt8} {bytes : Bytes} {e : Entry}
    {es : List Entry} :
    scan offset seen bytes = .ok (e :: es) ↔
      ∃ r rest, firstRecord offset bytes = .ok (r, rest) ∧ r.tag ∉ seen ∧
        Entry.ofRecord r = .ok e ∧
        scan (offset + 3 + r.value.length) (r.tag :: seen) rest = .ok es := by
  rw [scan]
  split
  · rename_i hnil
    subst hnil
    simp [firstRecord]
  · split
    · rename_i hfault
      simp [hfault]
    · rename_i r rest hfirst
      simp only [hfirst, bind_eq_ok_iff, ensure_eq_ok_iff, pure_eq_ok_iff, List.cons.injEq,
        Except.ok.injEq, Prod.mk.injEq]
      constructor
      · rintro ⟨_, hnew, e', hof, es', hscan, rfl, rfl⟩
        exact ⟨r, rest, ⟨rfl, rfl⟩, hnew, hof, hscan⟩
      · rintro ⟨_, _, ⟨rfl, rfl⟩, hnew, hof, hscan⟩
        exact ⟨(), hnew, e, hof, es, hscan, rfl, rfl⟩

/-- The written form of entries. -/
def framedEntries (es : List Entry) : Bytes :=
  es.flatMap fun e => e.record.framed

/-- Entries that a scan takes after these tags: they are legal, and their tags differ from each
other and from those. -/
def Taken (seen : List UInt8) (es : List Entry) : Prop :=
  (es.map Entry.tag).Nodup ∧ ∀ e ∈ es, e.Legal ∧ e.tag.code ∉ seen

theorem taken_cons_iff {seen : List UInt8} {e : Entry} {es : List Entry} :
    Taken seen (e :: es) ↔ (e.Legal ∧ e.tag.code ∉ seen) ∧ Taken (e.tag.code :: seen) es := by
  have hfresh : e.tag ∉ es.map Entry.tag ↔ ∀ e' ∈ es, e'.tag.code ≠ e.tag.code := by
    simp only [List.mem_map, not_exists, not_and]
    exact forall₂_congr fun e' _ => not_congr ⟨congrArg Tag.code, Tag.code_inj⟩
  simp only [Taken, List.map_cons, List.nodup_cons, List.forall_mem_cons, hfresh]
  simp only [List.mem_cons, not_or]
  constructor
  · rintro ⟨⟨hne, hdistinct⟩, he, hes⟩
    exact ⟨he, hdistinct, fun e' he' => ⟨(hes e' he').1, hne e' he', (hes e' he').2⟩⟩
  · rintro ⟨he, hdistinct, hes⟩
    exact ⟨⟨fun e' he' => (hes e' he').2.1, hdistinct⟩, he,
      fun e' he' => ⟨(hes e' he').1, (hes e' he').2.2⟩⟩

theorem taken_nil_iff {es : List Entry} :
    Taken [] es ↔ (es.map Entry.tag).Nodup ∧ ∀ e ∈ es, e.Legal := by
  simp [Taken]

theorem scan_eq_ok_iff {offset : Nat} {seen : List UInt8} {bytes : Bytes} {es : List Entry} :
    scan offset seen bytes = .ok es ↔ bytes = framedEntries es ∧ Taken seen es := by
  induction es generalizing offset seen bytes with
  | nil => simp [scan_eq_ok_nil_iff, framedEntries, Taken]
  | cons e es ih =>
      simp only [scan_eq_ok_cons_iff, firstRecord_eq_ok_iff, Entry.ofRecord_eq_ok_iff, ih,
        taken_cons_iff]
      constructor
      · rintro ⟨_, _, ⟨_, rfl⟩, hseen, ⟨rfl, hlegal⟩, rfl, hes⟩
        exact ⟨rfl, ⟨hlegal, hseen⟩, hes⟩
      · rintro ⟨rfl, ⟨hlegal, hseen⟩, hes⟩
        exact ⟨e.record, framedEntries es, ⟨hlegal.announceable, rfl⟩, hseen, ⟨rfl, hlegal⟩, rfl,
          hes⟩

theorem entries_eq_ok_iff {bytes : Bytes} {es : List Entry} :
    entries bytes = .ok es ↔
      bytes = framedEntries es ∧ (es.map Entry.tag).Nodup ∧ ∀ e ∈ es, e.Legal := by
  rw [entries, scan_eq_ok_iff, taken_nil_iff]

end Blob

end CovenantStaking

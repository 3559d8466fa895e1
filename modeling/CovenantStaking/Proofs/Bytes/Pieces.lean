import CovenantStaking.Proofs.Bytes.Numbers

/-!
# Bytes in pieces

Byte strings that divide into pieces of one length, and the pieces that they divide into.
-/

namespace CovenantStaking

variable {n : Nat}

/-- Pieces of one length can be told apart where they are put one after the other. -/
theorem flatMap_inj {α β : Type} {f : α → List β} (hlength : ∀ a, (f a).length = n)
    (hf : Function.Injective f) {items items' : List α} (hcount : items.length = items'.length)
    (h : items.flatMap f = items'.flatMap f) : items = items' := by
  induction items generalizing items' with
  | nil => exact (List.eq_nil_of_length_eq_zero hcount.symm).symm
  | cons item items ih =>
      cases items' with
      | nil => cases hcount
      | cons item' items' =>
          obtain ⟨hitem, hitems⟩ := List.append_inj h ((hlength item).trans (hlength item').symm)
          rw [hf hitem, ih (Nat.succ.inj hcount) hitems]

namespace Octets

theorem exists_bytes_eq_iff {bytes : Bytes} :
    (∃ octets : Octets n, octets.bytes = bytes) ↔ bytes.length = n := by
  constructor
  · rintro ⟨octets, rfl⟩
    exact octets.length_eq
  · intro h
    exact ⟨⟨bytes, h⟩, rfl⟩

theorem flatMap_bytes_length (items : List (Octets n)) :
    (items.flatMap bytes).length = n * items.length := by
  induction items with
  | nil => rfl
  | cons item items ih =>
      simp only [List.flatMap_cons, List.length_append, item.length_eq, ih, List.length_cons,
        Nat.mul_add, Nat.mul_one]
      exact Nat.add_comm _ _

theorem flatMap_bytes_pieces {count : Nat} {data : Bytes} (h : data.length = n * count) :
    (pieces n count data).flatMap bytes = data ∧ (pieces n count data).length = count := by
  induction count generalizing data with
  | zero =>
      have hnil : data = [] := List.eq_nil_of_length_eq_zero h
      subst hnil
      exact ⟨rfl, rfl⟩
  | succ count ih =>
      rw [Nat.mul_succ] at h
      have htake : (data.take n).length = n := by rw [List.length_take]; omega
      obtain ⟨hbytes, hlength⟩ := ih (by rw [List.length_drop]; omega : (data.drop n).length = _)
      have hpieces : pieces n (count + 1) data =
          ⟨data.take n, htake⟩ :: pieces n count (data.drop n) := by
        simp only [pieces, ofBytes?, htake, ↓reduceDIte]
      rw [hpieces]
      constructor
      · rw [List.flatMap_cons, hbytes, List.take_append_drop]
      · rw [List.length_cons, hlength]

end Octets

/-! ## Words -/

/-- The written form of words, four bytes each. -/
def wordBytes (words : List UInt32) : Bytes :=
  words.flatMap fun word => beBytes 4 word.toNat

theorem wordBytes_length (words : List UInt32) : (wordBytes words).length = 4 * words.length := by
  induction words with
  | nil => rfl
  | cons word words ih =>
      simp only [wordBytes] at ih
      simp only [wordBytes, List.flatMap_cons, List.length_append, beBytes_length, ih,
        List.length_cons]
      omega

/-- Bytes that spell words, four for each, the most significant first. -/
inductive BigEndian : Bytes → List UInt32 → Prop
  | nil : BigEndian [] []
  | cons {word : UInt32} {words : List UInt32} {a b c d : UInt8} {rest : Bytes}
      (value : word.toNat = 256 ^ 3 * a.toNat + 256 ^ 2 * b.toNat + 256 * c.toNat + d.toNat)
      (others : BigEndian rest words) : BigEndian (a :: b :: c :: d :: rest) (word :: words)

theorem ofBeBytes_four (a b c d : UInt8) :
    ofBeBytes [a, b, c, d] = 256 ^ 3 * a.toNat + 256 ^ 2 * b.toNat + 256 * c.toNat + d.toNat := by
  simp only [ofBeBytes, List.reverse_cons, List.reverse_nil, List.nil_append, List.cons_append,
    ofLeBytes]
  omega

theorem bigEndian_iff {data : Bytes} {words : List UInt32} :
    BigEndian data words ↔ wordBytes words = data := by
  constructor
  · intro h
    induction h with
    | nil => rfl
    | @cons word words a b c d rest value others ih =>
        have hbytes : beBytes 4 word.toNat = [a, b, c, d] := by
          rw [value, ← ofBeBytes_four]
          exact beBytes_ofBeBytes [a, b, c, d]
        rw [wordBytes] at ih
        rw [wordBytes, List.flatMap_cons, ih, hbytes]
        rfl
  · rintro rfl
    induction words with
    | nil => exact .nil
    | cons word words ih =>
        obtain ⟨a, b, c, d, h⟩ : ∃ a b c d, beBytes 4 word.toNat = [a, b, c, d] :=
          ⟨_, _, _, _, rfl⟩
        have hword : word.toNat < 256 ^ 4 := word.toNat_lt
        rw [wordBytes, List.flatMap_cons, h]
        refine .cons ?_ ih
        rw [← ofBeBytes_four, ← h, ofBeBytes_beBytes hword]

theorem wordBytes_wordsBy {data : Bytes} (h : data.length % 4 = 0) :
    wordBytes (wordsBy ofBeBytes data) = data := by
  fun_induction wordsBy ofBeBytes data with
  | case1 a b c d rest ih =>
      have hrest : rest.length % 4 = 0 := by
        simp only [List.length_cons] at h
        omega
      have hlt : ofBeBytes [a, b, c, d] < 256 ^ 4 := ofBeBytes_lt [a, b, c, d]
      have hword : (UInt32.ofNat (ofBeBytes [a, b, c, d])).toNat = ofBeBytes [a, b, c, d] := by
        rw [UInt32.toNat_ofNat']
        omega
      have hbytes : beBytes 4 (ofBeBytes [a, b, c, d]) = [a, b, c, d] :=
        beBytes_ofBeBytes [a, b, c, d]
      have hih := ih hrest
      simp only [wordBytes] at hih
      rw [wordBytes, List.flatMap_cons, hih, hword, hbytes]
      rfl
  | case2 data hshort =>
      match data, hshort, h with
      | [], _, _ => rfl
      | [_], _, h => simp at h
      | [_, _], _, h => simp at h
      | [_, _, _], _, h => simp at h
      | a :: b :: c :: d :: rest, hshort, _ => exact absurd rfl (hshort a b c d rest)

end CovenantStaking

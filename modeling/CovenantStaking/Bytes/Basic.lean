/-!
# Byte strings

Byte strings, byte strings whose length is part of the type, and natural numbers written as bytes:
bytes that were read are written again.
-/

namespace CovenantStaking

abbrev Bytes := List UInt8

def ascii (text : String) : Bytes :=
  text.toList.map fun c => UInt8.ofNat c.toNat

/-! ## Numbers as bytes -/

/-- The low `width` bytes of `value`, the least significant first. -/
def leBytes : (width value : Nat) → Bytes
  | 0, _ => []
  | width + 1, value => UInt8.ofNat value :: leBytes width (value / 256)

/-- The low `width` bytes of `value`, the most significant first. -/
def beBytes (width value : Nat) : Bytes :=
  (leBytes width value).reverse

/-- The number that bytes spell, the least significant first. -/
def ofLeBytes : Bytes → Nat
  | [] => 0
  | b :: bs => b.toNat + 256 * ofLeBytes bs

/-- The number that bytes spell, the most significant first. -/
def ofBeBytes (bytes : Bytes) : Nat :=
  ofLeBytes bytes.reverse

@[simp] theorem leBytes_length (width value : Nat) : (leBytes width value).length = width := by
  induction width generalizing value with
  | zero => rfl
  | succ width ih => simp [leBytes, ih]

@[simp] theorem beBytes_length (width value : Nat) : (beBytes width value).length = width := by
  simp [beBytes]

theorem leBytes_ofLeBytes (bytes : Bytes) : leBytes bytes.length (ofLeBytes bytes) = bytes := by
  induction bytes with
  | nil => rfl
  | cons b bs ih =>
    have hb := b.toNat_lt
    have hdiv : (b.toNat + 256 * ofLeBytes bs) / 256 = ofLeBytes bs := by omega
    have hmod : UInt8.ofNat (b.toNat + 256 * ofLeBytes bs) = b := by
      apply UInt8.toNat_inj.1
      rw [UInt8.toNat_ofNat']
      omega
    simp only [List.length_cons, ofLeBytes, leBytes, hdiv, hmod, ih]

theorem beBytes_ofBeBytes (bytes : Bytes) : beBytes bytes.length (ofBeBytes bytes) = bytes := by
  have h := leBytes_ofLeBytes bytes.reverse
  rw [List.length_reverse] at h
  simp [beBytes, ofBeBytes, h]

/-! ## Words of 32 bits -/

/-- The words that bytes spell, four bytes each; fewer than four at the end are left out. -/
def wordsBy (value : Bytes → Nat) : Bytes → List UInt32
  | a :: b :: c :: d :: rest => UInt32.ofNat (value [a, b, c, d]) :: wordsBy value rest
  | _ => []

/-! ## Byte strings of a fixed length -/

/-- A byte string of exactly `n` bytes. -/
structure Octets (n : Nat) where
  bytes : Bytes
  length_eq : bytes.length = n
  deriving DecidableEq

namespace Octets

variable {n : Nat}

@[ext] theorem ext {a b : Octets n} (h : a.bytes = b.bytes) : a = b := by
  cases a; cases b; simp_all

@[simp] theorem length_bytes (a : Octets n) : a.bytes.length = n := a.length_eq

/-- The byte string as one of fixed length, if it has that length. -/
def ofBytes? (n : Nat) (bytes : Bytes) : Option (Octets n) :=
  if h : bytes.length = n then some ⟨bytes, h⟩ else none

def zero (n : Nat) : Octets n :=
  ⟨List.replicate n 0, by simp⟩

def toNat (a : Octets n) : Nat :=
  ofBeBytes a.bytes

def ofNat (n value : Nat) : Octets n :=
  ⟨beBytes n value, by simp⟩

/-- The first `count` pieces of `n` bytes; what is too short for a piece is left out. -/
def pieces (n : Nat) : (count : Nat) → Bytes → List (Octets n)
  | 0, _ => []
  | count + 1, bytes =>
    match ofBytes? n (bytes.take n) with
    | some piece => piece :: pieces n count (bytes.drop n)
    | none => []

@[simp] theorem ofBytes?_bytes (a : Octets n) : ofBytes? n a.bytes = some a := by
  simp [ofBytes?]

theorem ofBytes?_eq_some_iff {bytes : Bytes} {a : Octets n} :
    ofBytes? n bytes = some a ↔ a.bytes = bytes := by
  unfold ofBytes?
  split
  · rw [Option.some.injEq, Octets.ext_iff]; exact eq_comm
  · rename_i h
    simp only [reduceCtorEq, false_iff]
    rintro rfl
    exact h a.length_eq

theorem ofBytes?_eq_none_iff {bytes : Bytes} : ofBytes? n bytes = none ↔ bytes.length ≠ n := by
  simp [ofBytes?]

theorem pieces_flatMap_bytes (items : List (Octets n)) :
    pieces n items.length (items.flatMap bytes) = items := by
  induction items with
  | nil => rfl
  | cons a items ih =>
    have htake : (a.bytes ++ items.flatMap bytes).take n = a.bytes :=
      List.take_left' a.length_eq
    have hdrop : (a.bytes ++ items.flatMap bytes).drop n = items.flatMap bytes :=
      List.drop_left' a.length_eq
    simp [pieces, htake, hdrop, ih]

end Octets

end CovenantStaking

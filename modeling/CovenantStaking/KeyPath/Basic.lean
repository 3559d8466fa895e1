import CovenantStaking.Key.Basic

/-!
# Derivation paths

A path holds ten words and the number of them in use. Its written form is `m` and, for each word in
use, a slash, the index, and an apostrophe for a hardened one.
-/

namespace CovenantStaking

def KeyPath.maxDepth : Nat := 10

/-- The way from the master key to a key of the host. -/
structure KeyPath where
  /-- Ten words; those past the depth are not in use. -/
  slots : List UInt32
  depth : UInt8
  slots_length : slots.length = KeyPath.maxDepth
  deriving DecidableEq

/-- The kind of address that a path's first component selects. -/
inductive AddressKind
  /-- The address holds the digest of a compressed key. -/
  | nativeSegwit
  /-- The address holds a key by its abscissa. -/
  | taproot
  deriving DecidableEq

namespace KeyPath

/-- The words in use, unless the depth counts more words than there are. -/
def components? (path : KeyPath) : Option (List UInt32) :=
  if path.depth.toNat ≤ path.slots.length then some (path.slots.take path.depth.toNat) else none

/-- The words in use, as many of them as there are. -/
def components (path : KeyPath) : List UInt32 :=
  path.slots.take path.depth.toNat

/-- The bit of a component that marks it as hardened. -/
def hardened : UInt32 := 0x80000000

def index (component : UInt32) : Nat :=
  component.toNat % 0x80000000

def isHardened (component : UInt32) : Bool :=
  0x80000000 ≤ component.toNat

def componentText (component : UInt32) : List Char :=
  '/' :: Nat.toDigits 10 (index component) ++ if isHardened component then ['\''] else []

/-- The path as written, such as `m/86'/0'/0'/0/1`. -/
def text (path : KeyPath) : String :=
  String.ofList ('m' :: path.components.flatMap componentText)

/-- A path of words that are few enough; the words not in use are zero. -/
def ofShort (components : List UInt32) (h : components.length ≤ maxDepth) : KeyPath where
  slots := components ++ List.replicate (maxDepth - components.length) 0
  depth := UInt8.ofNat components.length
  slots_length := by simp; omega

/-- The five components of a standard address under `purpose`; the first three are hardened. -/
def standard (purpose coin account change address : UInt32) : KeyPath :=
  ofShort [purpose ||| hardened, coin ||| hardened, account ||| hardened, change, address]
    (by simp [maxDepth])

def taproot (coin account change address : UInt32) : KeyPath :=
  standard 86 coin account change address

def nativeSegwit (coin account change address : UInt32) : KeyPath :=
  standard 84 coin account change address

/-- The path that holds nothing, not even in the words not in use. -/
def blank : KeyPath :=
  ofShort [] (by simp)

@[ext] theorem ext {p q : KeyPath} (hs : p.slots = q.slots) (hd : p.depth = q.depth) : p = q := by
  cases p; cases q; simp_all

@[simp] theorem components_ofShort (cs : List UInt32) (h : cs.length ≤ maxDepth) :
    (ofShort cs h).components = cs := by
  have hlt : cs.length < 2 ^ 8 := Nat.lt_of_le_of_lt h (by decide)
  have hdepth : (ofShort cs h).depth.toNat = cs.length := by
    rw [ofShort, UInt8.toNat_ofNat', Nat.mod_eq_of_lt hlt]
  rw [components, hdepth]
  exact List.take_left' rfl

end KeyPath

end CovenantStaking

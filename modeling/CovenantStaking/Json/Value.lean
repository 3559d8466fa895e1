/-!
# JSON values

A value as its text gives it: numbers and strings are kept as they are written, so that a text can
be read even where a number fits no word and a string spells no text.
-/

namespace CovenantStaking.Json

/-- A value; a string is what stands between its quotes, escapes and all. -/
inductive Value
  | null
  | bool (value : Bool)
  | number (literal : List Char)
  | string (raw : List Char)
  | array (items : List Value)
  | object (members : List (List Char × Value))

/-! ## Numbers -/

def isExponent : List Char → Bool
  | [] => true
  | mark :: rest =>
    (mark = 'e' || mark = 'E') &&
      match rest with
      | sign :: digits =>
        if sign = '+' || sign = '-' then !digits.isEmpty && digits.all Char.isDigit
        else sign.isDigit && digits.all Char.isDigit
      | [] => false

/-- A fraction and an exponent, either of which may be wanting. -/
def isFraction : List Char → Bool
  | '.' :: digit :: rest => digit.isDigit && isExponent (rest.dropWhile Char.isDigit)
  | rest => isExponent rest

/-- A number without its sign: no digit follows a leading zero. -/
def isUnsigned : List Char → Bool
  | '0' :: rest => isFraction rest
  | digit :: rest => digit.isDigit && isFraction (rest.dropWhile Char.isDigit)
  | [] => false

def isNumber : List Char → Bool
  | '-' :: rest => isUnsigned rest
  | literal => isUnsigned literal

def Value.ofNat (n : Nat) : Value :=
  .number (Nat.toDigits 10 n)

/-- The natural number below `bound` that is written by its digits alone. -/
def Value.natural? (bound : Nat) : Value → Option Nat
  | .number literal =>
    let n := Nat.ofDigitChars 10 literal 0
    if literal.all Char.isDigit ∧ n < bound then some n else none
  | _ => none

/-! ## Strings -/

/-- A part of a string: a character, or a code unit given by number. -/
inductive StringPart
  | char (c : Char)
  | unit (n : Nat)
  deriving DecidableEq

def hexDigit? (c : Char) : Option Nat :=
  if c.isDigit then some (c.toNat - 48)
  else if 'a' ≤ c ∧ c ≤ 'f' then some (c.toNat - 87)
  else if 'A' ≤ c ∧ c ≤ 'F' then some (c.toNat - 55)
  else none

/-- The code unit that four digits spell. -/
def codeUnit? (a b c d : Char) : Option Nat := do
  let a ← hexDigit? a
  let b ← hexDigit? b
  let c ← hexDigit? c
  let d ← hexDigit? d
  pure (4096 * a + 256 * b + 16 * c + d)

/-- The character that stands for itself, or for a control, after a backslash. -/
def shortEscape? (c : Char) : Option Char :=
  if c = '"' ∨ c = '\\' ∨ c = '/' then some c
  else if c = 'b' then some '\x08'
  else if c = 'f' then some '\x0c'
  else if c = 'n' then some '\n'
  else if c = 'r' then some '\r'
  else if c = 't' then some '\t'
  else none

/-- The parts of a string; controls have to be escaped. -/
def stringParts? : List Char → Option (List StringPart)
  | [] => some []
  | '\\' :: 'u' :: a :: b :: c :: d :: rest => do
    let n ← codeUnit? a b c d
    let parts ← stringParts? rest
    pure (.unit n :: parts)
  | '\\' :: c :: rest => do
    let c ← shortEscape? c
    let parts ← stringParts? rest
    pure (.char c :: parts)
  | c :: rest =>
    if c.toNat < 0x20 ∨ c = '\\' then none
    else do
      let parts ← stringParts? rest
      pure (.char c :: parts)

/-- The text that parts spell: a code unit of the upper half of a pair, held in `upper`, has to be
followed by one of the lower half. -/
def joinParts? (upper : Option Nat) : List StringPart → Option (List Char)
  | [] =>
    match upper with
    | none => some []
    | some _ => none
  | .char c :: rest =>
    match upper with
    | none => do
      let text ← joinParts? none rest
      pure (c :: text)
    | some _ => none
  | .unit n :: rest =>
    match upper with
    | none =>
      if n < 0xd800 ∨ 0xe000 ≤ n then do
        let text ← joinParts? none rest
        pure (Char.ofNat n :: text)
      else if n < 0xdc00 then joinParts? (some n) rest
      else none
    | some high =>
      if 0xdc00 ≤ n ∧ n < 0xe000 then do
        let text ← joinParts? none rest
        pure (Char.ofNat (0x10000 + (high - 0xd800) * 0x400 + (n - 0xdc00)) :: text)
      else none

/-- The text that a string spells, if its code units are paired. -/
def text? (raw : List Char) : Option (List Char) := do
  let parts ← stringParts? raw
  joinParts? none parts

/-- A character as it is written in a string: quotes, backslashes and controls are escaped. -/
def escaped (c : Char) : List Char :=
  if c = '"' then ['\\', '"']
  else if c = '\\' then ['\\', '\\']
  else if c = '\x08' then ['\\', 'b']
  else if c = '\x0c' then ['\\', 'f']
  else if c = '\n' then ['\\', 'n']
  else if c = '\r' then ['\\', 'r']
  else if c = '\t' then ['\\', 't']
  else if c.toNat < 0x20 then
    ['\\', 'u', '0', '0', Nat.digitChar (c.toNat / 16), Nat.digitChar (c.toNat % 16)]
  else [c]

def Value.ofText (text : String) : Value :=
  .string (text.toList.flatMap escaped)

def Value.text? : Value → Option String
  | .string raw => String.ofList <$> Json.text? raw
  | _ => none

end CovenantStaking.Json

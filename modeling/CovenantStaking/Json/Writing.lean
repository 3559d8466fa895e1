import CovenantStaking.Json.Value

/-!
# Writing JSON

Two forms: one without blanks, and one with a line for each item, indented by two blanks for each
level.
-/

namespace CovenantStaking.Json.Value

def quoted (raw : List Char) : List Char :=
  '"' :: raw ++ ['"']

def boolText (b : Bool) : List Char :=
  if b then ['t', 'r', 'u', 'e'] else ['f', 'a', 'l', 's', 'e']

/-! ## Without blanks -/

mutual

def compactChars : Value → List Char
  | null => ['n', 'u', 'l', 'l']
  | bool b => boolText b
  | number literal => literal
  | string raw => quoted raw
  | array [] => ['[', ']']
  | array (item :: items) => '[' :: compactChars item ++ compactItems items ++ [']']
  | object [] => ['\x7b', '\x7d']
  | object ((key, value) :: members) =>
    '\x7b' :: quoted key ++ ':' :: compactChars value ++ compactMembers members ++ ['\x7d']

def compactItems : List Value → List Char
  | [] => []
  | item :: items => ',' :: compactChars item ++ compactItems items

def compactMembers : List (List Char × Value) → List Char
  | [] => []
  | (key, value) :: members =>
    ',' :: quoted key ++ ':' :: compactChars value ++ compactMembers members

end

def compact (value : Value) : String :=
  String.ofList value.compactChars

/-! ## With lines -/

def newLine (level : Nat) : List Char :=
  '\n' :: List.replicate (2 * level) ' '

mutual

def prettyChars (level : Nat) : Value → List Char
  | null => ['n', 'u', 'l', 'l']
  | bool b => boolText b
  | number literal => literal
  | string raw => quoted raw
  | array [] => ['[', ']']
  | array (item :: items) =>
    '[' :: newLine (level + 1) ++ prettyChars (level + 1) item
      ++ prettyItems (level + 1) items ++ newLine level ++ [']']
  | object [] => ['\x7b', '\x7d']
  | object ((key, value) :: members) =>
    '\x7b' :: newLine (level + 1) ++ quoted key ++ ':' :: ' ' :: prettyChars (level + 1) value
      ++ prettyMembers (level + 1) members ++ newLine level ++ ['\x7d']

def prettyItems (level : Nat) : List Value → List Char
  | [] => []
  | item :: items => ',' :: newLine level ++ prettyChars level item ++ prettyItems level items

def prettyMembers (level : Nat) : List (List Char × Value) → List Char
  | [] => []
  | (key, value) :: members =>
    ',' :: newLine level ++ quoted key ++ ':' :: ' ' :: prettyChars level value
      ++ prettyMembers level members

end

def pretty (value : Value) : String :=
  String.ofList (value.prettyChars 0)

end CovenantStaking.Json.Value

import CovenantStaking.Json.Value

/-!
# JSON tokens

A text is cut at its punctuation, at its blanks and at its quotes. What lies between them is a word:
a number or one of the three names.
-/

namespace CovenantStaking.Json

inductive Token
  | openArray
  | closeArray
  | openObject
  | closeObject
  | comma
  | colon
  /-- A value that holds no others. -/
  | scalar (value : Value)

namespace Token

def isBlank (c : Char) : Bool :=
  c = ' ' || c = '\t' || c = '\n' || c = '\r'

def punctuation? (c : Char) : Option Token :=
  if c = '[' then some openArray
  else if c = ']' then some closeArray
  else if c = '\x7b' then some openObject
  else if c = '\x7d' then some closeObject
  else if c = ',' then some comma
  else if c = ':' then some colon
  else none

/-- The value that a word is. -/
def ofWord? (word : List Char) : Option Token :=
  if word = ['n', 'u', 'l', 'l'] then some (scalar .null)
  else if word = ['t', 'r', 'u', 'e'] then some (scalar (.bool true))
  else if word = ['f', 'a', 'l', 's', 'e'] then some (scalar (.bool false))
  else if isNumber word then some (scalar (.number word))
  else none

/-- Puts the token of a word, if there is a word, in front of what follows it. -/
def afterWord (word : List Char) (tokens : List Token) : Option (List Token) :=
  if word = [] then some tokens
  else do
    let token ← ofWord? word
    pure (token :: tokens)

/-- What a scan is in the middle of; what it has read of it is in reverse. -/
inductive Mode
  | word (read : List Char)
  | string (read : List Char)
  /-- In a string, behind a backslash. -/
  | escape (read : List Char)

/-- The tokens of a text, when the scan is in the middle of something. -/
def scan : Mode → List Char → Option (List Token)
  | .word read, [] => afterWord read.reverse []
  | .word read, c :: rest =>
    if c = '"' then do
      let tokens ← scan (.string []) rest
      afterWord read.reverse tokens
    else if isBlank c then do
      let tokens ← scan (.word []) rest
      afterWord read.reverse tokens
    else
      match punctuation? c with
      | some token => do
        let tokens ← scan (.word []) rest
        afterWord read.reverse (token :: tokens)
      | none => scan (.word (c :: read)) rest
  | .string read, c :: rest =>
    if c = '"' then do
      let _ ← stringParts? read.reverse
      let tokens ← scan (.word []) rest
      pure (scalar (.string read.reverse) :: tokens)
    else if c = '\\' then scan (.escape (c :: read)) rest
    else scan (.string (c :: read)) rest
  | .escape read, c :: rest => scan (.string (c :: read)) rest
  | .string _, [] | .escape _, [] => none

def ofText (text : List Char) : Option (List Token) :=
  scan (.word []) text

end Token

end CovenantStaking.Json

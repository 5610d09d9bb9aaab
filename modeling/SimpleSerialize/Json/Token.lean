/-!
The tokens of a JSON text. The text is read one character at a time, so a token ends at the first
character that cannot belong to it.
-/

namespace SimpleSerialize.Json

inductive Token where
  | openBrace
  | closeBrace
  | openBracket
  | closeBracket
  | colon
  | comma
  | null
  | bool (b : Bool)
  /-- The text of a well-formed number. -/
  | number (literal : List Char)
  /-- A string, unless an escape in it names half of a surrogate pair and so no character. -/
  | string (content? : Option String)
deriving DecidableEq

def isDigit (c : Char) : Bool := '0' ≤ c && c ≤ '9'

/-- No digits are left, or an exponent follows. -/
def isExponent : List Char → Bool
  | [] => true
  | e :: cs =>
    let digits :=
      match cs with
      | '+' :: cs => cs
      | '-' :: cs => cs
      | cs => cs
    (e == 'e' || e == 'E') && !digits.isEmpty && digits.all isDigit

/-- What may follow the digits in front of the point. -/
def isFraction : List Char → Bool
  | '.' :: cs => !(cs.takeWhile isDigit).isEmpty && isExponent (cs.dropWhile isDigit)
  | cs => isExponent cs

def isNumber (literal : List Char) : Bool :=
  let unsigned :=
    match literal with
    | '-' :: cs => cs
    | cs => cs
  match unsigned with
  | '0' :: cs => isFraction cs
  | c :: cs => isDigit c && isFraction (cs.dropWhile isDigit)
  | [] => false

/-- A character of a string, or a code between 0xD800 and 0xDFFF that an escape named. -/
inductive Unit16 where
  | char (c : Char)
  | half (code : Nat)

/-- The value of up to four hexadecimal digits. -/
def hexValue? (digits : List Char) : Option Nat :=
  digits.foldlM
    (fun n c =>
      if isDigit c then some (16 * n + (c.toNat - 48))
      else if 'a' ≤ c && c ≤ 'f' then some (16 * n + (c.toNat - 87))
      else if 'A' ≤ c && c ≤ 'F' then some (16 * n + (c.toNat - 55))
      else none)
    0

def unitOfCode (code : Nat) : Unit16 :=
  if 0xD800 ≤ code ∧ code ≤ 0xDFFF then .half code else .char (Char.ofNat code)

/-- Joins a high half and the low half behind it; any other half has no character. -/
def joinHalves : List Char → List Unit16 → Option String
  | done, [] => some (String.ofList done.reverse)
  | done, .char c :: units => joinHalves (c :: done) units
  | done, .half high :: .half low :: units =>
    if high < 0xDC00 ∧ 0xDC00 ≤ low then
      joinHalves (Char.ofNat (0x10000 + (high - 0xD800) * 0x400 + (low - 0xDC00)) :: done) units
    else none
  | _, .half _ :: _ => none

/-- Where in a token the reader stands; what was read of it is kept last first. -/
inductive Mode where
  | between
  | word (read : List Char)
  | number (read : List Char)
  | string (read : List Unit16)
  | escape (read : List Unit16)
  | code (read : List Unit16) (digits : List Char)

def isBlank (c : Char) : Bool := c == ' ' || c == '\t' || c == '\n' || c == '\r'

def isWordChar (c : Char) : Bool := 'a' ≤ c && c ≤ 'z'

def isNumberChar (c : Char) : Bool :=
  isDigit c || c == '-' || c == '+' || c == '.' || c == 'e' || c == 'E'

def wordToken? (word : List Char) : Option Token :=
  if word = "null".toList then some .null
  else if word = "true".toList then some (.bool true)
  else if word = "false".toList then some (.bool false)
  else none

def numberToken? (literal : List Char) : Option Token :=
  if isNumber literal then some (.number literal) else none

/-- A character between tokens. -/
def start (done : List Token) (c : Char) : Option (Mode × List Token) :=
  if isBlank c then some (.between, done)
  else if c = '\x7b' then some (.between, .openBrace :: done)
  else if c = '\x7d' then some (.between, .closeBrace :: done)
  else if c = '[' then some (.between, .openBracket :: done)
  else if c = ']' then some (.between, .closeBracket :: done)
  else if c = ':' then some (.between, .colon :: done)
  else if c = ',' then some (.between, .comma :: done)
  else if c = '"' then some (.string [], done)
  else if c = '-' || isDigit c then some (.number [c], done)
  else if isWordChar c then some (.word [c], done)
  else none

def escaped? : Char → Option Char
  | '"' => some '"'
  | '\\' => some '\\'
  | '/' => some '/'
  | 'b' => some '\x08'
  | 'f' => some '\x0c'
  | 'n' => some '\n'
  | 'r' => some '\r'
  | 't' => some '\t'
  | _ => none

/-- One character further; the finished tokens are kept last first. -/
def step : Mode × List Token → Char → Option (Mode × List Token)
  | (.between, done), c => start done c
  | (.word read, done), c =>
    if isWordChar c then some (.word (c :: read), done)
    else do
      let token ← wordToken? read.reverse
      start (token :: done) c
  | (.number read, done), c =>
    if isNumberChar c then some (.number (c :: read), done)
    else do
      let token ← numberToken? read.reverse
      start (token :: done) c
  | (.string read, done), c =>
    if c = '"' then some (.between, .string (joinHalves [] read.reverse) :: done)
    else if c = '\\' then some (.escape read, done)
    else if c.toNat < 0x20 then none
    else some (.string (.char c :: read), done)
  | (.escape read, done), c =>
    if c = 'u' then some (.code read [], done)
    else do
      let c ← escaped? c
      some (.string (.char c :: read), done)
  | (.code read digits, done), c =>
    if digits.length < 3 then some (.code read (c :: digits), done)
    else do
      let code ← hexValue? (c :: digits).reverse
      some (.string (unitOfCode code :: read), done)

/-- The tokens at the end of the text. -/
def finish : Mode × List Token → Option (List Token)
  | (.between, done) => some done.reverse
  | (.word read, done) => do
    let token ← wordToken? read.reverse
    return (token :: done).reverse
  | (.number read, done) => do
    let token ← numberToken? read.reverse
    return (token :: done).reverse
  | _ => none

def tokens? (text : String) : Option (List Token) := do
  finish (← text.toList.foldlM step (.between, []))

end SimpleSerialize.Json

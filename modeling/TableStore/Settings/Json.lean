/-! JSON texts, as far as reading settings needs them: a natural number is kept as its digits and
any other number without a value, and a string whose escapes denote no text is told apart, since
it may stand where nothing reads it. -/

namespace TableStore.Settings

inductive Json
  | null
  | boolean (value : Bool)
  | natural (digits : List Char)
  | number
  | string (text : Option String)
  | array (items : List Json)
  | object (members : List (Option String × Json))

namespace Json

def isBlank (c : Char) : Bool := c = ' ' || c = '\t' || c = '\n' || c = '\r'

/-- What is left of a text, with leading blanks dropped. -/
def trim (cs : List Char) : List Char := cs.dropWhile isBlank

/-! ### Strings -/

/-- A character of a string, or the sixteen bits of a numeric escape. -/
inductive Piece
  | char (c : Char)
  | code (n : Nat)

def hexValue? (c : Char) : Option Nat :=
  if c.isDigit then some (c.toNat - 48)
  else if 'a' ≤ c ∧ c ≤ 'f' then some (c.toNat - 87)
  else if 'A' ≤ c ∧ c ≤ 'F' then some (c.toNat - 55)
  else none

/-- The character that a backslash and `c` stand for. -/
def escaped? (c : Char) : Option Char :=
  if c = '"' ∨ c = '\\' ∨ c = '/' then some c
  else if c = 'b' then some '\x08'
  else if c = 'f' then some '\x0c'
  else if c = 'n' then some '\n'
  else if c = 'r' then some '\r'
  else if c = 't' then some '\t'
  else none

/-- The pieces of a string up to its closing quote, and what follows. -/
def pieces : List Char → Option (List Piece × List Char)
  | [] => none
  | '"' :: rest => some ([], rest)
  | '\\' :: 'u' :: a :: b :: c :: d :: rest => do
    let n := (← hexValue? a) * 4096 + (← hexValue? b) * 256 + (← hexValue? c) * 16 + (← hexValue? d)
    let (tail, rest) ← pieces rest
    return (.code n :: tail, rest)
  | '\\' :: e :: rest => do
    let c ← escaped? e
    let (tail, rest) ← pieces rest
    return (.char c :: tail, rest)
  | c :: rest =>
    if c.toNat < 32 then none
    else do
      let (tail, rest) ← pieces rest
      return (.char c :: tail, rest)

/-- Codes that stand for a character only in pairs. -/
def isHighHalf (n : Nat) : Bool := 0xd800 ≤ n && n < 0xdc00

def isLowHalf (n : Nat) : Bool := 0xdc00 ≤ n && n < 0xe000

/-- The text of some pieces, if the halves of characters come in pairs. -/
def textOf : List Piece → Option (List Char)
  | [] => some []
  | .char c :: rest => (textOf rest).map (c :: ·)
  | .code high :: .code low :: rest =>
    if isHighHalf high then
      if isLowHalf low then
        (textOf rest).map (Char.ofNat (0x10000 + (high - 0xd800) * 0x400 + (low - 0xdc00)) :: ·)
      else none
    else if isLowHalf high then none
    else (textOf (.code low :: rest)).map (Char.ofNat high :: ·)
  | .code n :: rest =>
    if isHighHalf n || isLowHalf n then none else (textOf rest).map (Char.ofNat n :: ·)

/-- A string behind its opening quote, and what follows. -/
def readString (cs : List Char) : Option (Option String × List Char) := do
  let (found, rest) ← pieces cs
  return ((textOf found).map String.ofList, rest)

/-! ### Numbers -/

/-- The digits at the start of a text, and what follows. -/
def digits (cs : List Char) : List Char × List Char := cs.span Char.isDigit

/-- One digit or more, dropped. -/
def afterDigits? (cs : List Char) : Option (List Char) :=
  match digits cs with
  | ([], _) => none
  | (_, rest) => some rest

/-- What follows an optional fraction. -/
def afterFraction? : List Char → Option (List Char)
  | '.' :: rest => afterDigits? rest
  | cs => some cs

/-- What follows an optional exponent. -/
def afterExponent? : List Char → Option (List Char)
  | 'e' :: '+' :: rest | 'e' :: '-' :: rest | 'E' :: '+' :: rest | 'E' :: '-' :: rest
  | 'e' :: rest | 'E' :: rest => afterDigits? rest
  | cs => some cs

/-- The digits of an integer: a lone zero, or digits of which the first is not zero. -/
def integer? (cs : List Char) : Option (List Char × List Char) :=
  match digits cs with
  | ([], _) => none
  | (['0'], rest) => some (['0'], rest)
  | ('0' :: _, _) => none
  | found => some found

/-- Whether a fraction or an exponent begins here. -/
def goesOn : List Char → Bool
  | '.' :: _ | 'e' :: _ | 'E' :: _ => true
  | _ => false

/-- A number without its sign, and what follows. -/
def readUnsigned (cs : List Char) : Option (Json × List Char) := do
  let (whole, tail) ← integer? cs
  if goesOn tail then return (.number, ← afterExponent? (← afterFraction? tail))
  else return (.natural whole, tail)

/-! ### Values -/

/-- What follows `word` in a text that begins with it. -/
def after? (word : List Char) (cs : List Char) : Option (List Char) :=
  if word.isPrefixOf cs then some (cs.drop word.length) else none

mutual

/-- A value, and what follows. Every level takes one unit of fuel, and so does every item. -/
def read : (fuel : Nat) → List Char → Option (Json × List Char)
  | 0, _ => none
  | fuel + 1, cs =>
    match trim cs with
    | '{' :: rest =>
      match trim rest with
      | '}' :: rest => some (.object [], rest)
      | rest => (readMembers fuel rest).map fun r => (.object r.1, r.2)
    | '[' :: rest =>
      match trim rest with
      | ']' :: rest => some (.array [], rest)
      | rest => (readItems fuel rest).map fun r => (.array r.1, r.2)
    | '"' :: rest => (readString rest).map fun r => (.string r.1, r.2)
    | '-' :: rest => (readUnsigned rest).map fun r => (.number, r.2)
    | 'n' :: rest => (after? ['u', 'l', 'l'] rest).map fun r => (.null, r)
    | 't' :: rest => (after? ['r', 'u', 'e'] rest).map fun r => (.boolean true, r)
    | 'f' :: rest => (after? ['a', 'l', 's', 'e'] rest).map fun r => (.boolean false, r)
    | rest => readUnsigned rest

/-- The items of an array up to its end, of which there is at least one. -/
def readItems : (fuel : Nat) → List Char → Option (List Json × List Char)
  | 0, _ => none
  | fuel + 1, cs => do
    let (item, rest) ← read fuel cs
    match trim rest with
    | ']' :: rest => return ([item], rest)
    | ',' :: rest =>
      let (items, rest) ← readItems fuel rest
      return (item :: items, rest)
    | _ => none

/-- The members of an object up to its end, of which there is at least one. -/
def readMembers : (fuel : Nat) → List Char → Option (List (Option String × Json) × List Char)
  | 0, _ => none
  | fuel + 1, cs => do
    match trim cs with
    | '"' :: rest =>
      let (key, rest) ← readString rest
      match trim rest with
      | ':' :: rest =>
        let (value, rest) ← read fuel rest
        match trim rest with
        | '}' :: rest => return ([(key, value)], rest)
        | ',' :: rest =>
          let (members, rest) ← readMembers fuel rest
          return ((key, value) :: members, rest)
        | _ => none
      | _ => none
    | _ => none

end

/-- The value of a whole text; only blanks may surround it. Each unit of fuel that `read`
takes goes with a character it consumes, or with the level above one that does. -/
def parse? (text : String) : Option Json :=
  let cs := text.toList
  match read (2 * cs.length + 2) cs with
  | some (value, rest) => if (trim rest).isEmpty then some value else none
  | none => none

end Json

end TableStore.Settings

import TableStore.Bytes

/-! UTF-8 text in byte strings that may hold anything else as well. Each longest beginning of a
character that is cut short or goes wrong is read as one replacement character. -/

namespace TableStore.Text

/-- The bytes of a text. -/
def utf8 (s : String) : Bytes := s.toUTF8.data.toList

/-- The text of bytes that are well-formed UTF-8 throughout. -/
def ofUtf8? (bytes : Array UInt8) : Option String := String.fromUTF8? ⟨bytes⟩

/-- For the first byte of a character of several bytes: its payload, the number of bytes that
follow, and the range of the next one, which leaves out overlong forms, surrogate halves and
numbers beyond the last character. -/
def leading? (b : Nat) : Option (Nat × Nat × Nat × Nat) :=
  if 0xc2 ≤ b ∧ b < 0xe0 then some (b - 0xc0, 1, 0x80, 0xbf)
  else if b = 0xe0 then some (0, 2, 0xa0, 0xbf)
  else if b = 0xed then some (13, 2, 0x80, 0x9f)
  else if 0xe1 ≤ b ∧ b < 0xf0 then some (b - 0xe0, 2, 0x80, 0xbf)
  else if b = 0xf0 then some (0, 3, 0x90, 0xbf)
  else if 0xf1 ≤ b ∧ b < 0xf4 then some (b - 0xf0, 3, 0x80, 0xbf)
  else if b = 0xf4 then some (4, 3, 0x80, 0x8f)
  else none

/-- What a reader has of a character it is in: the payload so far, the bytes still to follow,
and the range of the next one. -/
structure Unfinished where
  payload : Nat
  missing : Nat
  low : Nat
  high : Nat

def replacement : Char := Char.ofNat 0xfffd

/-- Reads one byte at the start of a character. -/
def begin (b : UInt8) : List Char × Option Unfinished :=
  let n := b.toNat
  if n < 0x80 then ([Char.ofNat n], none)
  else
    match leading? n with
    | some (payload, missing, low, high) => ([], some ⟨payload, missing, low, high⟩)
    | none => ([replacement], none)

/-- Reads one byte. -/
def step (b : UInt8) : Option Unfinished → List Char × Option Unfinished
  | none => begin b
  | some p =>
    let n := b.toNat
    if p.low ≤ n ∧ n ≤ p.high then
      let payload := p.payload * 64 + n % 64
      if p.missing ≤ 1 then ([Char.ofNat payload], none)
      else ([], some ⟨payload, p.missing - 1, 0x80, 0xbf⟩)
    else
      let (read, next) := begin b
      (replacement :: read, next)

def lossyFrom : Option Unfinished → Bytes → List Char
  | none, [] => []
  | some _, [] => [replacement]
  | state, b :: bytes =>
    let (read, next) := step b state
    read ++ lossyFrom next bytes

/-- The text of bytes, with replacement characters where they are not UTF-8. -/
def lossy (bytes : Bytes) : String := String.ofList (lossyFrom none bytes)

end TableStore.Text

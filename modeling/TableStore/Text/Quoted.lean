import TableStore.Bytes
import TableStore.Text.Printable

/-! The quoted forms in which messages show a path or a key. A path keeps its printable
characters, a key is shown byte by byte, and in both the quote, the backslash and what cannot be
printed are escaped. -/

namespace TableStore.Text

/-- The lower-case hexadecimal digit of a number below sixteen. -/
def hexDigit (n : Nat) : Char :=
  if n < 10 then Char.ofNat (n + 48) else Char.ofNat (n + 87)

/-- A character inside a quoted text. -/
def escapeChar (c : Char) : List Char :=
  if c = '"' then ['\\', '"']
  else if c = '\\' then ['\\', '\\']
  else if c = '\n' then ['\\', 'n']
  else if c = '\r' then ['\\', 'r']
  else if c = '\t' then ['\\', 't']
  else if c = '\x00' then ['\\', '0']
  else if isPrintable c then [c]
  else ['\\', 'u', '\x7b'] ++ Nat.toDigits 16 c.toNat ++ ['\x7d']

/-- A text between quotes. -/
def quote (s : String) : String :=
  String.ofList ('"' :: s.toList.flatMap escapeChar ++ ['"'])

/-- A byte inside a quoted byte string; what is not printable ASCII is shown by its two
hexadecimal digits. -/
def escapeByte (b : UInt8) : List Char :=
  let n := b.toNat
  if n = 34 then ['\\', '"']
  else if n = 92 then ['\\', '\\']
  else if n = 10 then ['\\', 'n']
  else if n = 13 then ['\\', 'r']
  else if n = 9 then ['\\', 't']
  else if n = 0 then ['\\', '0']
  else if 32 ≤ n ∧ n < 127 then [Char.ofNat n]
  else ['\\', 'x', hexDigit (n / 16), hexDigit (n % 16)]

/-- A byte string between quotes, marked as bytes. -/
def quoteBytes (bytes : Bytes) : String :=
  String.ofList ('b' :: '"' :: bytes.flatMap escapeByte ++ ['"'])

end TableStore.Text

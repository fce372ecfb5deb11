import TableStore.Fault

/-! The record of a cell in a stored table: the key's length in four bytes, the key, a signed
stamp in eight bytes and, for a present version, the payload's length and the payload. The
sign of the stamp tells a tombstone from a present version, so a tombstone needs a positive
stamp, a present version one that is not negative, and the least stamp is never stored. -/

namespace TableStore

namespace Record

/-- The stamp field that stands for a version. -/
def stampField : Version → Except Fault Int64
  | .present stamp _ => if 0 ≤ stamp then .ok stamp else .error (.stamp stamp)
  | .tombstone stamp => if 0 < stamp then .ok (-stamp) else .error (.stamp stamp)
  | .absent => .error (.misfit .absentVersion)

/-- Whether a stamp field marks a tombstone, and the stamp it holds. -/
def readStampField (field : Int64) : Except Fault (Bool × Stamp) :=
  if field = Int64.minValue then .error (.damage .stampRange)
  else if field < 0 then .ok (true, -field)
  else .ok (false, field)

/-- The greatest length that a length field holds. -/
def maxLength : Nat := 4294967295

/-- A length in four bytes, then the bytes. -/
def counted (bytes : Bytes) : Bytes := bigEndian 4 bytes.length ++ bytes

/-- The payload part of a record. -/
def payload : Version → Except Fault Bytes
  | .present _ data =>
    if data.length ≤ maxLength then .ok (counted data) else .error (.misfit .longValue)
  | _ => .ok []

/-- The bytes of a cell's record. -/
def encode (cell : Cell) : Except Fault Bytes := do
  if maxLength < cell.key.length then throw (.misfit .longKey)
  let field ← stampField cell.version
  let rest ← payload cell.version
  return counted cell.key ++ bigEndian 8 field.toUInt64.toNat ++ rest

end Record

end TableStore

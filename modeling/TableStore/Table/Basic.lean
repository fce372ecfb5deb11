import TableStore.Filter
import TableStore.Table.Name
import TableStore.Table.Record

/-! A stored table, read from its image. Opening checks the trailer only: the number of rows,
the filter of the filtered layout, and that the last row starts among the records. Rows are
decoded when they are asked for, every read stays inside the record region, and a record that
would leave it is a fault. Rows are found by binary search over their keys. -/

namespace TableStore

/-- What a published table is known by. -/
structure Summary where
  path : String
  generation : UInt64
  layout : Layout
  rows : Nat
  size : Nat
  deriving DecidableEq

structure Table where
  path : String
  generation : UInt64
  layout : Layout
  image : Array UInt8
  rows : Nat
  /-- Where the records end. -/
  recordsEnd : Nat
  /-- Where the offsets of the records begin. -/
  indexStart : Nat
  filter : Option Filter
  deriving DecidableEq

namespace Table

/-! ### Opening -/

/-- The bytes of an image from `start` up to `stop`. -/
def bytesOf (image : Array UInt8) (start stop : Nat) : Bytes := (image.extract start stop).toList

/-- The big-endian number in `width` bytes of an image from `start` on. -/
def numberOf (image : Array UInt8) (start width : Nat) : Nat :=
  ofBigEndian (bytesOf image start (start + width))

/-- The filter that ends at `stop`, and where it begins. -/
def filterBefore (path : String) (image : Array UInt8) (stop : Nat) :
    Except Fault (Nat × Filter) := do
  if stop < 4 then throw (.damage (.noFilter path))
  let words := numberOf image (stop - 4) 4
  if stop - 4 < words * 8 then throw (.damage (.filterOverrun path words))
  let start := stop - 4 - words * 8
  let filter ← Filter.decodeWords (bytesOf image start (stop - 4)) words
  return (start, filter)

/-- Where the records end, and the filter if the layout has one. -/
def regions (path : String) (layout : Layout) (image : Array UInt8) (indexStart : Nat) :
    Except Fault (Nat × Option Filter) :=
  match layout with
  | .plain => .ok (indexStart, none)
  | .filtered => do
    let (start, filter) ← filterBefore path image indexStart
    return (start, some filter)

/-- Reads the trailer of an image. -/
def parse (path : String) (generation : UInt64) (layout : Layout) (image : Array UInt8) :
    Except Fault Table := do
  let size := image.size
  if size < 8 then throw (.damage (.tooShort path size))
  let rows := numberOf image (size - 8) 8
  if size - 8 < rows * 8 then throw (.damage (.rowCount path rows size))
  let indexStart := size - 8 - rows * 8
  let (recordsEnd, filter) ← regions path layout image indexStart
  if 0 < rows ∧ recordsEnd ≤ numberOf image (indexStart + (rows - 1) * 8) 8 then
    throw (.damage (.indexOverrun path))
  return { path, generation, layout, image, rows, recordsEnd, indexStart, filter }

/-- Opens the table that a path names, from what reading the file gave. -/
def ofFile (path : String) (file : Except DiskFault (Array UInt8)) : Except Fault Table :=
  match TableName.parse? path with
  | none => .error (.misfit (.tableName path))
  | some (generation, layout) =>
    match file with
    | .ok image => parse path generation layout image
    | .error cause => .error (.disk cause)

def summary (t : Table) : Summary where
  path := t.path
  generation := t.generation
  layout := t.layout
  rows := t.rows
  size := t.image.size

/-! ### Rows -/

/-- The `length` bytes from `start` on, if they lie in the record region. -/
def slice (t : Table) (start length : Nat) : Except Fault Bytes :=
  if start + length ≤ t.recordsEnd then .ok (bytesOf t.image start (start + length))
  else .error (.damage (.recordOverrun t.path start))

/-- Where the record of a row begins. -/
def offset (t : Table) (row : Nat) : Except Fault Nat :=
  if row < t.rows then .ok (numberOf t.image (t.indexStart + row * 8) 8)
  else .error (.misuse (.rowRange row t.rows))

/-- A string preceded by its length in four bytes, and the position after it. -/
def countedAt (t : Table) (start : Nat) : Except Fault (Bytes × Nat) := do
  let length := ofBigEndian (← t.slice start 4)
  let bytes ← t.slice (start + 4) length
  return (bytes, start + 4 + length)

def keyAt (t : Table) (row : Nat) : Except Fault Bytes := do
  let (key, _) ← t.countedAt (← t.offset row)
  return key

def cellAt (t : Table) (row : Nat) : Except Fault Cell := do
  let (key, next) ← t.countedAt (← t.offset row)
  let field := (UInt64.ofNat (ofBigEndian (← t.slice next 8))).toInt64
  let (removed, stamp) ← Record.readStampField field
  if removed then return ⟨key, .tombstone stamp⟩
  let (data, _) ← t.countedAt (next + 8)
  return ⟨key, .present stamp data⟩

/-- The cells from a row on. A row that cannot be read ends the list with its fault. -/
def cellsFrom (t : Table) (row : Nat) : List (Except Fault Cell) :=
  if row < t.rows then
    match t.cellAt row with
    | .ok cell => .ok cell :: t.cellsFrom (row + 1)
    | .error fault => [.error fault]
  else []
termination_by t.rows - row

/-! ### Searching -/

/-- The first row of `low ≤ row < high` whose key is at least `key`, or `high`. -/
def search (t : Table) (key : Bytes) (low high : Nat) : Except Fault Nat :=
  if low < high then do
    let middle := low + (high - low) / 2
    if (← t.keyAt middle) < key then t.search key (middle + 1) high
    else t.search key low middle
  else .ok low
termination_by high - low

/-- The number of the first row whose key is at least `key`. -/
def position (t : Table) (key : Bytes) : Except Fault Nat := t.search key 0 t.rows

/-- Whether the table may hold the key; without a filter it always may. -/
def mayContain (t : Table) (key : Bytes) : Bool := t.filter.all (·.mayContain key)

/-- The cell stored under a key. -/
def get? (t : Table) (key : Bytes) : Except Fault (Option Cell) := do
  if ¬ t.mayContain key then return none
  let row ← t.position key
  if t.rows ≤ row then return none
  if (← t.keyAt row) ≠ key then return none
  return some (← t.cellAt row)

/-- The cells whose keys are at least `key`. -/
def scan (t : Table) (key : Bytes) : Except Fault (List (Except Fault Cell)) := do
  return t.cellsFrom (← t.position key)

end Table

end TableStore

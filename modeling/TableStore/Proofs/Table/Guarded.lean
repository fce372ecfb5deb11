import TableStore.Proofs.Outcome
import TableStore.Table.Basic

/-! Reading a table on a machine with 64-bit words. Every sum, difference and product is computed
in a word, every part of the image is taken by its two ends, every word of a filter by its index,
and the search and the cursor take their turns one by one. The reader stops dead where a number
leaves its word, an end or an index leaves its bytes, or the turns run out; otherwise it ends with
a value or a fault. -/

namespace TableStore

/-- A computation that may stop dead; if it does not, it ends with a value or a fault. -/
abbrev Guarded (α : Type) := ExceptT Fault Option α

namespace Guarded

variable {α β : Type}

/-- A computation that ends. -/
def of (outcome : Except Fault α) : Guarded α := ExceptT.mk (some outcome)

def stop : Guarded α := ExceptT.mk none

/-- The outcome of a computation, a fault as well as a value. -/
def caught (x : Guarded α) : Guarded (Except Fault α) := ExceptT.mk (x.run.map .ok)

@[simp] theorem pure_eq_of (a : α) : (pure a : Guarded α) = of (.ok a) := rfl

@[simp] theorem throw_eq_of (fault : Fault) : (throw fault : Guarded α) = of (.error fault) := rfl

@[simp] theorem of_ok_bind (a : α) (f : α → Guarded β) : (of (.ok a) >>= f) = f a := rfl

@[simp] theorem of_error_bind (fault : Fault) (f : α → Guarded β) :
    (of (.error fault) >>= f) = of (.error fault) := rfl

@[simp] theorem caught_of (x : Except Fault α) : caught (of x) = of (.ok x) := rfl

/-- One that goes on with computations that end ends as they do without guards. -/
theorem of_bind {x : Except Fault α} {f : α → Guarded β} {g : α → Except Fault β}
    (h : ∀ a, x = .ok a → f a = of (g a)) : (of x >>= f) = of (x >>= g) := by
  cases x with
  | error fault => rfl
  | ok a => exact h a rfl

/-! ### Words and parts -/

def sum (a b : Nat) : Guarded Nat := if a + b < UInt64.size then pure (a + b) else stop

def product (a b : Nat) : Guarded Nat := if a * b < UInt64.size then pure (a * b) else stop

def difference (a b : Nat) : Guarded Nat := if b ≤ a then pure (a - b) else stop

/-- The bytes of an image from `start` up to `stop`, which must lie in it in this order. -/
def part (image : Array UInt8) (start stop : Nat) : Guarded Bytes :=
  if start ≤ stop ∧ stop ≤ image.size then pure (Table.bytesOf image start stop) else Guarded.stop

/-- The number in `width` bytes of an image from `start` on. -/
def number (image : Array UInt8) (start width : Nat) : Guarded Nat := do
  return ofBigEndian (← part image start (← sum start width))

theorem sum_eq {a b : Nat} (h : a + b < UInt64.size) : sum a b = of (.ok (a + b)) := if_pos h

theorem product_eq {a b : Nat} (h : a * b < UInt64.size) : product a b = of (.ok (a * b)) :=
  if_pos h

theorem difference_eq {a b : Nat} (h : b ≤ a) : difference a b = of (.ok (a - b)) := if_pos h

theorem part_eq {image : Array UInt8} {start stop : Nat} (h : start ≤ stop)
    (he : stop ≤ image.size) : part image start stop = of (.ok (Table.bytesOf image start stop)) :=
  if_pos ⟨h, he⟩

theorem number_eq {image : Array UInt8} {start width : Nat} (h : start + width ≤ image.size)
    (hw : image.size < UInt64.size) :
    number image start width = of (.ok (Table.numberOf image start width)) := by
  rw [number, sum_eq (by omega), of_ok_bind, part_eq (by omega) h]
  rfl

end Guarded

/-! ### Filters -/

namespace Filter.Guarded

open TableStore.Guarded

/-- The first `n` words of a byte string, which must have as many. -/
def readWords : (n : Nat) → Bytes → Guarded (List UInt64)
  | 0, _ => pure []
  | n + 1, bytes =>
    if bytes.length < 8 then stop
    else do
      let rest ← readWords n (bytes.drop 8)
      return UInt64.ofNat (ofBigEndian (bytes.take 8)) :: rest

def decodeWords (bytes : Bytes) (n : Nat) : Guarded Filter := do
  let length ← product n 8
  if bytes.length = length then of (ofWords (← readWords n bytes).toArray)
  else throw (.damage (.filterSize length bytes.length))

/-- Bit `i`, whose word must be there. -/
def hasBit (f : Filter) (i : Nat) : Guarded Bool :=
  if i / 64 < f.words.size then pure (f.hasBit i) else stop

/-- The bit of a key under one multiplier, a remainder by the number of bits. -/
def position (bits : Nat) (key : Bytes) (multiplier : UInt64) : Guarded Nat :=
  if bits = 0 then stop else pure (Filter.position bits key multiplier)

def mayContain (f : Filter) (key : Bytes) : Guarded Bool :=
  multipliers.allM fun multiplier => do
    let bits ← product f.words.size 64
    hasBit f (← position bits key multiplier)

end Filter.Guarded

/-! ### Tables -/

namespace Table.Guarded

open TableStore.Guarded

/-- The filter that ends at `stop`, and where it begins. -/
def filterBefore (path : String) (image : Array UInt8) (stop : Nat) : Guarded (Nat × Filter) := do
  if stop < 4 then throw (.damage (.noFilter path))
  let wordsEnd ← difference stop 4
  let words := ofBigEndian (← part image wordsEnd stop)
  let length ← product words 8
  if wordsEnd < length then throw (.damage (.filterOverrun path words))
  let start ← difference wordsEnd length
  let filter ← Filter.Guarded.decodeWords (← part image start wordsEnd) words
  return (start, filter)

def regions (path : String) (layout : Layout) (image : Array UInt8) (indexStart : Nat) :
    Guarded (Nat × Option Filter) :=
  match layout with
  | .plain => pure (indexStart, none)
  | .filtered => do
    let (start, filter) ← filterBefore path image indexStart
    return (start, some filter)

/-- Where the record of a row begins. -/
def offset (t : Table) (row : Nat) : Guarded Nat :=
  if row < t.rows then do
    number t.image (← sum t.indexStart (← product row 8)) 8
  else throw (.misuse (.rowRange row t.rows))

/-- Checks that the last row begins among the records. -/
def checkIndex (t : Table) : Guarded Table := do
  if 0 < t.rows then
    if t.recordsEnd ≤ (← offset t (← difference t.rows 1)) then
      throw (.damage (.indexOverrun t.path))
  return t

/-- Reads the trailer of an image. The length of the index is the one product that may leave its
word; that is a fault as well. -/
def parse (path : String) (generation : UInt64) (layout : Layout) (image : Array UInt8) :
    Guarded Table := do
  let size := image.size
  if size < 8 then throw (.damage (.tooShort path size))
  let indexEnd ← difference size 8
  let rows := ofBigEndian (← part image indexEnd size)
  if UInt64.size ≤ rows * 8 ∨ indexEnd < rows * 8 then throw (.damage (.rowCount path rows size))
  let indexStart ← difference indexEnd (rows * 8)
  let (recordsEnd, filter) ← regions path layout image indexStart
  checkIndex { path, generation, layout, image, rows, recordsEnd, indexStart, filter }

/-- The `length` bytes from `start` on, if they lie in the record region. Their end may leave its
word; then they do not. -/
def slice (t : Table) (start length : Nat) : Guarded Bytes :=
  if start + length < UInt64.size ∧ start + length ≤ t.recordsEnd then
    part t.image start (start + length)
  else throw (.damage (.recordOverrun t.path start))

/-- A string preceded by its length in four bytes, and the position after it. -/
def countedAt (t : Table) (start : Nat) : Guarded (Bytes × Nat) := do
  let length := ofBigEndian (← slice t start 4)
  let first ← sum start 4
  let _ ← slice t first length
  let next ← sum first length
  return (← part t.image first next, next)

def keyAt (t : Table) (row : Nat) : Guarded Bytes := do
  let (key, _) ← countedAt t (← offset t row)
  return key

/-- A stamp without its sign; the least one has no positive counterpart. -/
def magnitude (field : Int64) : Guarded Stamp :=
  if field = Int64.minValue then stop else pure (if field < 0 then -field else field)

def readStampField (field : Int64) : Guarded (Bool × Stamp) := do
  if field = Int64.minValue then throw (.damage .stampRange)
  return (decide (field < 0), ← magnitude field)

def cellAt (t : Table) (row : Nat) : Guarded Cell := do
  let (key, next) ← countedAt t (← offset t row)
  let field := (UInt64.ofNat (ofBigEndian (← slice t next 8))).toInt64
  let rest ← sum next 8
  let (removed, stamp) ← readStampField field
  if removed then return ⟨key, .tombstone stamp⟩
  let (data, _) ← countedAt t rest
  return ⟨key, .present stamp data⟩

/-- The first row of `low ≤ row < high` whose key is at least `key`, or `high`, found in so many
turns. -/
def search (t : Table) (key : Bytes) : (turns low high : Nat) → Guarded Nat
  | 0, low, high => if low < high then stop else pure low
  | turns + 1, low, high =>
    if low < high then do
      let middle ← sum low ((← difference high low) / 2)
      if (← keyAt t middle) < key then search t key turns (← sum middle 1) high
      else search t key turns low middle
    else pure low

/-- The search halves the rows with every turn. -/
def position (t : Table) (key : Bytes) : Guarded Nat := search t key (t.rows.log2 + 1) 0 t.rows

def mayContain (t : Table) (key : Bytes) : Guarded Bool :=
  match t.filter with
  | none => pure true
  | some filter => Filter.Guarded.mayContain filter key

def get? (t : Table) (key : Bytes) : Guarded (Option Cell) := do
  if ¬ (← mayContain t key) then return none
  let row ← position t key
  if t.rows ≤ row then return none
  if (← keyAt t row) ≠ key then return none
  return some (← cellAt t row)

/-- One step of a cursor that stands at a row: what it yields, and the row it stands at then. -/
def next (t : Table) (row : Nat) : Guarded (Option (Except Fault Cell) × Nat) :=
  if row < t.rows then do
    match ← caught (cellAt t row) with
    | .ok cell => return (some (.ok cell), ← sum row 1)
    | .error fault => return (some (.error fault), t.rows)
  else pure (none, row)

/-- All that a cursor yields until it ends, which it must in so many turns. -/
def cellsFrom (t : Table) : (turns row : Nat) → Guarded (List (Except Fault Cell))
  | 0, _ => stop
  | turns + 1, row => do
    match ← next t row with
    | (none, _) => return []
    | (some item, row) => return item :: (← cellsFrom t turns row)

/-- The cells whose keys are at least `key`. A cursor yields at most one item for a row, and then
ends. -/
def scan (t : Table) (key : Bytes) : Guarded (List (Except Fault Cell)) := do
  cellsFrom t (t.rows + 1) (← position t key)

end Table.Guarded

end TableStore

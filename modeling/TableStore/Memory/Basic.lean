import TableStore.Generations
import TableStore.Memory.Buffer

/-! The memory tables of a store. Writes go to the active table. When it has grown past the
threshold it is rotated: it becomes pending, a flush task for it joins the queue, and an empty
table with the next generation takes its place. A pending table stays readable until its
generation is acknowledged as flushed; it is then kept aside for cursors that still read it.
Closing rotates the active table once more, as the final task, and refuses every later
write. Generations are words and are counted with care: whoever asks for one when the last has
been handed out runs into an overflow. -/

namespace TableStore

/-- The generation after another; the last one has none. -/
def generationAfter (generation : UInt64) : Except Fault UInt64 :=
  if generation.toNat + 1 < UInt64.size then .ok (generation + 1) else .error .overflow

/-- A rotated table to be written to disk; the final one is the last. -/
structure FlushTask where
  generation : UInt64
  buffer : Buffer
  final : Bool
  deriving DecidableEq

structure Memory where
  /-- The active table is rotated when it holds more bytes than this. -/
  threshold : Nat
  filterBits : Nat
  active : Buffer
  activeGeneration : UInt64
  nextGeneration : UInt64
  /-- Rotated tables that are not yet flushed. -/
  pending : Generations Buffer
  /-- Flushed tables, which cursors may still read. -/
  retired : Generations Buffer
  /-- The tasks not yet received by the flush worker. -/
  queue : List FlushTask
  /-- The greatest generation flushed so far. -/
  lastFlushed : UInt64
  closed : Bool

namespace Memory

/-- An empty memory: the generation of its active table, and the next to be handed out. -/
def empty (threshold filterBits : Nat) (generation next : UInt64) : Memory where
  threshold := threshold
  filterBits := filterBits
  active := Buffer.empty filterBits
  activeGeneration := generation
  nextGeneration := next
  pending := .empty
  retired := .empty
  queue := []
  lastFlushed := 0
  closed := false

/-- An empty memory that hands out generations from the given one on, the first to its active
table. -/
def startAt (threshold filterBits : Nat) (generation : UInt64) : Except Fault Memory := do
  return empty threshold filterBits generation (← generationAfter generation)

/-! ### Writing and rotating -/

/-- Reserves a generation that no memory table will have. -/
def allocate (m : Memory) : Except Fault (UInt64 × Memory) := do
  return (m.nextGeneration, { m with nextGeneration := ← generationAfter m.nextGeneration })

/-- Makes the active table pending, queues its task, and starts an empty one. -/
def rotate (m : Memory) (final : Bool) : Except Fault Memory := do
  let (generation, next) ← m.allocate
  return { next with
    active := Buffer.empty m.filterBits
    activeGeneration := generation
    pending := m.pending.insert m.activeGeneration m.active
    queue := m.queue ++ [⟨m.activeGeneration, m.active, final⟩] }

/-- Writes a cell to the active table, which is rotated when it has grown too large. -/
def write (m : Memory) (cell : Cell) : Except Fault Memory :=
  if m.closed then .error .closed
  else
    let m := { m with active := m.active.write cell }
    if m.threshold < m.active.size then m.rotate false else .ok m

/-- Rotates the active table unless it is empty, and tells the generation it had. -/
def forceRotate (m : Memory) : Except Fault (Option UInt64 × Memory) :=
  if m.closed then .error .closed
  else if m.active.isEmpty then .ok (none, m)
  else return (some m.activeGeneration, ← m.rotate false)

/-- Closes the memory, with the active table as the final task. A closed memory stays as it
is. -/
def close (m : Memory) : Except Fault Memory :=
  if m.closed then .ok m else return { ← m.rotate true with closed := true }

/-! ### Flushing -/

/-- Takes the first task of the queue. -/
def take (m : Memory) : Option FlushTask × Memory :=
  (m.queue.head?, { m with queue := m.queue.tail })

/-- Acknowledges that the table of a generation is on disk. -/
def flushed (m : Memory) (generation : UInt64) : Memory :=
  { m with
    pending := m.pending.erase generation
    retired :=
      match m.pending.find? generation with
      | some buffer => m.retired.insert generation buffer
      | none => m.retired
    lastFlushed := max m.lastFlushed generation }

/-! ### Reading -/

/-- The readable tables: the pending ones, oldest first, then the active one. -/
def tables (m : Memory) : List Buffer := m.pending.values ++ [m.active]

/-- The bytes held by the readable tables. -/
def size (m : Memory) : Nat := m.tables.foldr (fun b n => b.size + n) 0

/-- The newest version of a key. -/
def get (m : Memory) (key : Bytes) : Version :=
  Version.newest (m.tables.filterMap (·.get? key))

/-- The table that has, or had, a generation. -/
def buffer? (m : Memory) (generation : UInt64) : Option Buffer :=
  if generation = m.activeGeneration then some m.active
  else (m.pending.find? generation).or (m.retired.find? generation)

end Memory

end TableStore

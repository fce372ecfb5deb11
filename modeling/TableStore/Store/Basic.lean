import TableStore.Disk.Publication
import TableStore.Memory.Cursor
import TableStore.Settings.Basic

/-! A store: its settings, the disk, the memory tables, the registered tables on disk by
generation, and the backlog of the flush worker. Opening a store removes the files of
unfinished tables, registers every table that can be read, and continues with the generation
after the greatest that any table file names, readable or not. -/

namespace TableStore

structure Store where
  settings : Settings
  disk : Disk
  memory : Memory
  /-- The registered tables on disk. -/
  tables : Generations Table
  /-- Tasks that the flush worker has received and not yet done. -/
  backlog : List FlushTask

/-- What opening finds in a directory: the disk without unfinished tables, the readable tables
and the greatest generation named. -/
structure Recovery where
  disk : Disk
  tables : Generations Table
  greatest : UInt64

namespace Recovery

/-- Takes in one entry of the directory. -/
def visit (r : Recovery) (name : String) : Recovery :=
  if TableName.isTemporary (r.disk.pathOf name) then { r with disk := r.disk.removeFile name }
  else
    match TableName.parse? (r.disk.pathOf name) with
    | none => r
    | some (generation, _) =>
      { r with
        greatest := max r.greatest generation
        tables :=
          match r.disk.openTable name with
          | .ok table => r.tables.insert generation table
          | .error _ => r.tables }

/-- Takes in all entries, in the order of the listing. -/
def ofDisk (disk : Disk) : Recovery :=
  disk.listing.foldl (fun r e => r.visit e.1) ⟨disk, .empty, 0⟩

end Recovery

/-- The name of the file that a table was opened from. -/
def Table.fileName (t : Table) : String :=
  String.ofList ((Text.Path.finalComponent? t.path).getD [])

namespace Store

/-! ### Opening -/

/-- Opens the store in the disk's directory, which is made if it is missing. The generations must
go on behind those that are named. -/
def load (settings : Settings) (disk : Disk) : Except Fault Store := do
  settings.validate
  let found := Recovery.ofDisk (← disk.makeDirectory)
  let first ← generationAfter found.greatest
  let memory ← Memory.startAt settings.flushThreshold settings.filterBits first
  return {
    settings
    disk := found.disk
    memory
    tables := found.tables
    backlog := [] }

/-! ### Registered tables -/

/-- Makes a table readable under a generation. -/
def register (s : Store) (generation : UInt64) (table : Table) : Store :=
  { s with tables := s.tables.insert generation table }

/-- The table of a generation is no longer read. -/
def unregister (s : Store) (generation : UInt64) : Store :=
  { s with tables := s.tables.erase generation }

/-- Removes the file of a table from the disk. -/
def removeFile (s : Store) (table : Table) : Store :=
  { s with disk := s.disk.removeFile table.fileName }

/-- The memory table of a generation is no longer pending. -/
def acknowledge (s : Store) (generation : UInt64) : Store :=
  { s with memory := s.memory.flushed generation }

/-- One of the changes by which a published table takes its place. -/
inductive Intake
  | register (generation : UInt64) (table : Table)
  | acknowledge (generation : UInt64)
  | unregister (generation : UInt64)
  | removeFile (table : Table)

def takeIn (s : Store) : Intake → Store
  | .register generation table => s.register generation table
  | .acknowledge generation => s.acknowledge generation
  | .unregister generation => s.unregister generation
  | .removeFile table => s.removeFile table

/-- Makes changes one after another. -/
def takeInAll (s : Store) (changes : List Intake) : Store := changes.foldl takeIn s

/-! ### Figures -/

/-- The figures that describe a store. -/
structure Statistics where
  tables : Nat
  rows : Nat
  bytes : Nat
  pending : Nat
  memoryBytes : Nat
  activeGeneration : UInt64
  lastFlushed : UInt64
  closed : Bool
  deriving DecidableEq

def statistics (s : Store) : Statistics where
  tables := s.tables.size
  rows := s.tables.values.foldr (fun t n => t.rows + n) 0
  bytes := s.tables.values.foldr (fun t n => t.image.size + n) 0
  pending := s.memory.pending.size
  memoryBytes := s.memory.size
  activeGeneration := s.memory.activeGeneration
  lastFlushed := s.memory.lastFlushed
  closed := s.memory.closed

end Store

end TableStore

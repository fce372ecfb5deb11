import TableStore.Fault
import TableStore.Table.Name

/-! The settings of a store. -/

namespace TableStore

structure Settings where
  /-- Path of the directory of table files. -/
  dataPath : String := "data"
  /-- The active memory table is rotated when it holds more bytes than this. -/
  flushThreshold : Nat := 4194304
  /-- Rotated tables that may wait for the flush worker. -/
  queueCapacity : Nat := 2
  /-- Tables are compacted when more than this many are on disk. -/
  maxTables : Nat := 10
  /-- The layout of new tables. -/
  layout : Layout := .filtered
  /-- Bits of every new filter. -/
  filterBits : Nat := 1048576
  /-- Milliseconds between attempts of a failed flush. -/
  retryInterval : Nat := 1000
  /-- Milliseconds that a flush is waited for. -/
  flushTimeout : Nat := 30000
  deriving DecidableEq

namespace Settings

/-- The first setting that no store can run with. -/
def fault? (s : Settings) : Option BadSetting :=
  if s.queueCapacity = 0 then some .queueCapacity
  else if s.maxTables = 0 then some .maxTables
  else if s.filterBits = 0 ∨ s.filterBits % 64 ≠ 0 then some (.filterBits s.filterBits)
  else if s.retryInterval = 0 then some .retryInterval
  else none

def validate (s : Settings) : Except Fault Unit :=
  match s.fault? with
  | some cause => .error (.setting cause)
  | none => .ok ()

end Settings

end TableStore

import TableStore.Store.Basic

/-! Compaction: all registered tables are merged into one of a fresh generation, which keeps
the newest version of every key, tombstones included. The new table is published and
registered before the old ones are unregistered and their files removed, so the data never
disappears; when the new table cannot be made, nothing but its generation is lost. -/

namespace TableStore

/-- The outcome of a compaction: the generations merged and the table that replaced them. -/
structure Compaction where
  inputs : List UInt64
  output : Summary
  deriving DecidableEq

namespace Draft

/-- Unites a table's filter with the draft's when their sizes agree. All keys are added to the
draft anyway, so a filter of another size is left out. -/
def seedFrom (d : Draft) (t : Table) : Draft :=
  match t.filter with
  | none => d
  | some filter => (d.seed filter).toOption.getD d

/-- Fills a draft with the merge of tables, the later one standing on a tie. -/
def fillFrom (tables : List Table) (d : Draft) : Except Fault Draft := do
  let sources ← tables.mapM (·.scan [])
  (tables.foldl seedFrom d).addAll (mergeLists sources)

end Draft

namespace Store

/-- How a published table takes the place of its inputs: it is registered, then the inputs are
unregistered, then their files are removed. -/
def replacement (inputs : List Table) (output : Table) : List Intake :=
  .register output.generation output ::
    (inputs.map fun t => .unregister t.generation) ++ inputs.map .removeFile

/-- Puts a published table in the place of its inputs. -/
def replaceTables (s : Store) (inputs : List Table) (output : Table) : Store :=
  s.takeInAll (replacement inputs output)

/-- Merges all registered tables into one; nothing is done with fewer than two. -/
def compact (s : Store) : Except Fault (Option Compaction) × Store :=
  let inputs := s.tables.values
  if inputs.length < 2 then (.ok none, s)
  else
    match s.memory.allocate with
    | .error fault => (.error fault, s)
    | .ok (generation, memory) =>
      let s := { s with memory }
      let (outcome, disk) := Draft.publish s.disk generation s.settings.layout
        s.settings.filterBits (Draft.fillFrom inputs)
      let s := { s with disk }
      match outcome with
      | .error fault => (.error fault, s)
      | .ok output =>
        match s.disk.openTable (TableName.file generation s.settings.layout) with
        | .error fault => (.error fault, s)
        | .ok table =>
          (.ok (some ⟨inputs.map Table.generation, output⟩), s.replaceTables inputs table)

/-- Compacts when more tables are registered than the settings allow. A compaction that fails
is tried again after the next flush. -/
def compactIfCrowded (s : Store) : Store :=
  if s.settings.maxTables < s.tables.size then s.compact.2 else s

end Store

end TableStore

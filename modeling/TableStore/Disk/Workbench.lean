import TableStore.Disk.Publication

/-! A workbench: a disk with one draft in the making, beside which other tables are published.
The draft holds on to the file it was started with, whatever that file is called by now. A table
of the same generation that is published meanwhile takes the file over: it empties the file and
gives it its own final name. What the draft then still writes goes into that table, from where the
draft has got to, and the draft itself can no longer be completed. -/

namespace TableStore

/-- A draft in the making. -/
structure Making where
  draft : Draft
  /-- The name that the draft's file has by now; none if the file was removed. -/
  file : Option String
  /-- How much of the output is in the file; the rest is held back. -/
  written : Nat

namespace Making

/-- Output is held back up to this many bytes. -/
def blockSize : Nat := 8192

/-- How much is in the file after the output has grown from `old` to `new` bytes: a piece that
fills a block is written at once, and what does not fit beside a new piece before it. -/
def writtenAfter (written old new : Nat) : Nat :=
  if blockSize ≤ new - old then new else if blockSize < new - written then old else written

/-- Writes the bytes of an output up to a position that are not in the file yet. -/
def write (m : Making) (disk : Disk) (output : Array UInt8) (stop : Nat) : Disk :=
  match m.file with
  | some name => if m.written < stop then
      disk.writeAt name m.written (output.extract m.written stop)
    else disk
  | none => disk

/-- The draft's file after a table of some generation was published or given up. -/
def fileAfter (m : Making) (generation : UInt64) (outcome : Except Fault Summary) :
    Option String :=
  let final := outcome.toOption.map fun s => TableName.file generation s.layout
  if m.file = some (TableName.temporary generation) then final
  else if m.file = final then none
  else m.file

end Making

structure Workbench where
  disk : Disk
  making : Option Making := none

namespace Workbench

/-- Gives the draft up. What it holds back is written first. -/
def drop (b : Workbench) : Workbench :=
  match b.making with
  | none => b
  | some m =>
    let records := m.draft.records
    ⟨m.draft.discard (m.write b.disk records records.size), none⟩

/-- Gives the draft up and starts another. -/
def start (b : Workbench) (generation : UInt64) (layout : Layout) (filterBits : Nat) :
    Option Fault × Workbench :=
  let b := b.drop
  match Draft.start b.disk generation layout filterBits with
  | (.error fault, disk) => (some fault, ⟨disk, none⟩)
  | (.ok d, disk) => (none, ⟨disk, some ⟨d, some d.temporaryName, 0⟩⟩)

/-- Takes one more cell into the draft `m`. -/
def add (b : Workbench) (m : Making) (cell : Cell) : Option Fault × Workbench :=
  match m.draft.add cell with
  | .error fault => (some fault, b)
  | .ok draft =>
    let written := Making.writtenAfter m.written m.draft.records.size draft.records.size
    (none, ⟨m.write b.disk draft.records written, some { m with draft, written }⟩)

/-- Unites a filter with that of the draft `m`. -/
def seed (b : Workbench) (m : Making) (filter : Filter) : Option Fault × Workbench :=
  match m.draft.seed filter with
  | .error fault => (some fault, b)
  | .ok draft => (none, { b with making := some { m with draft } })

/-- Completes the draft `m`. -/
def finish (b : Workbench) (m : Making) : Except Fault Summary × Workbench :=
  let image := m.draft.image
  match (m.write b.disk image image.size).rename m.draft.temporaryName m.draft.fileName with
  | (some fault, disk) => (.error fault, ⟨m.draft.discard disk, none⟩)
  | (none, disk) => (.ok (m.draft.summary disk), ⟨disk, none⟩)

/-- Publishes a table of the given cells beside the draft. -/
def build (b : Workbench) (generation : UInt64) (layout : Layout) (filterBits : Nat)
    (cells : List (Except Fault Cell)) : Except Fault Summary × Workbench :=
  let (outcome, disk) := Draft.build b.disk generation layout filterBits cells
  (outcome, ⟨disk, b.making.map fun m => { m with file := m.fileAfter generation outcome }⟩)

end Workbench

end TableStore

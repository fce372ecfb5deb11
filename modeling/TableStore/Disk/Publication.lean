import TableStore.Disk.Basic
import TableStore.Table.Draft

/-! Publishing a table. A draft is written under a temporary name and renamed to its final
one when it is complete, so a final name never holds a part of a table; a draft that is given
up takes its temporary file with it. -/

namespace TableStore

namespace Draft

def temporaryName (d : Draft) : String := TableName.temporary d.generation

def fileName (d : Draft) : String := TableName.file d.generation d.layout

def summary (d : Draft) (disk : Disk) : Summary where
  path := disk.pathOf d.fileName
  generation := d.generation
  layout := d.layout
  rows := d.offsets.size
  size := d.image.size

/-- Starts a draft with its temporary file. -/
def start (disk : Disk) (generation : UInt64) (layout : Layout) (filterBits : Nat) :
    Except Fault Draft × Disk :=
  match disk.create (TableName.temporary generation) with
  | (some fault, disk) => (.error fault, disk)
  | (none, disk) => (.ok (empty generation layout filterBits), disk)

/-- Gives a draft up. -/
def discard (d : Draft) (disk : Disk) : Disk := disk.removeFile d.temporaryName

/-- The operations that complete a draft: its image is written before it gets its final name. -/
def completion (d : Draft) : List (Disk → Option Fault × Disk) :=
  [(·.write d.temporaryName d.image), (·.rename d.temporaryName d.fileName)]

/-- Completes a draft and gives it its final name. -/
def finish (d : Draft) (disk : Disk) : Except Fault Summary × Disk :=
  match disk.performAll d.completion with
  | (some fault, disk) => (.error fault, d.discard disk)
  | (none, disk) => (.ok (d.summary disk), disk)

/-- Publishes a table of the cells that `fill` puts into an empty draft. -/
def publish (disk : Disk) (generation : UInt64) (layout : Layout) (filterBits : Nat)
    (fill : Draft → Except Fault Draft) : Except Fault Summary × Disk :=
  match start disk generation layout filterBits with
  | (.error fault, disk) => (.error fault, disk)
  | (.ok d, disk) =>
    match fill d with
    | .error fault => (.error fault, d.discard disk)
    | .ok d => d.finish disk

/-- Publishes a table of the given cells, unless one of them is a fault or is refused. -/
def build (disk : Disk) (generation : UInt64) (layout : Layout) (filterBits : Nat)
    (cells : List (Except Fault Cell)) : Except Fault Summary × Disk :=
  publish disk generation layout filterBits (·.addAll cells)

end Draft

end TableStore

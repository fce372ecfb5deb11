import TableStore.Filter
import TableStore.Table.Name
import TableStore.Table.Record

/-! A table that is being written: the records so far, their offsets, the greatest key and,
in the filtered layout, a filter over the keys. A cell is taken when its key is greater than
every key before it and its version can be stored; one that is refused leaves the draft as it
was. The image of the draft is the records, the filter, the offsets and their number. -/

namespace TableStore

structure Draft where
  generation : UInt64
  layout : Layout
  filter : Option Filter
  records : Array UInt8
  offsets : Array Nat
  lastKey : Option Bytes

namespace Draft

/-- A draft without cells. -/
def empty (generation : UInt64) (layout : Layout) (filterBits : Nat) : Draft where
  generation := generation
  layout := layout
  filter :=
    match layout with
    | .plain => none
    | .filtered => some (Filter.empty filterBits)
  records := #[]
  offsets := #[]
  lastKey := none

/-- Unites the filter of another table with the draft's. A plain draft has none to unite. -/
def seed (d : Draft) (other : Filter) : Except Fault Draft :=
  match d.filter with
  | none => .ok d
  | some f => do return { d with filter := some (← f.union other) }

/-- Takes one more cell. -/
def add (d : Draft) (cell : Cell) : Except Fault Draft := do
  if let some last := d.lastKey then
    if ¬ last < cell.key then throw (.misfit (.notAscending cell.key last))
  let record ← Record.encode cell
  let offsets := d.offsets.push d.records.size
  return { d with
    filter := d.filter.map (·.insert cell.key)
    records := d.records ++ record
    offsets
    lastKey := some cell.key }

/-- Takes cells one after another up to the first fault, be it in the cells or in taking
one. -/
def addAll (d : Draft) : List (Except Fault Cell) → Except Fault Draft
  | [] => .ok d
  | item :: rest => do (← d.add (← item)).addAll rest

/-- What follows the records. -/
def trailer (d : Draft) : Bytes :=
  ((d.filter.map Filter.encode).getD []) ++ d.offsets.toList.flatMap (bigEndian 8)
    ++ bigEndian 8 d.offsets.size

/-- The bytes of the finished table. -/
def image (d : Draft) : Array UInt8 := d.records ++ d.trailer

end Draft

end TableStore

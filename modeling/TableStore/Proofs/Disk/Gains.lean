import TableStore.Proofs.Disk.Published

/-! Table files that come and go. A disk gains a table when one has been published under a
generation: that name opens, and every name that opened before and is not the new one opens as it
did. Files that are removed leave the others as they are. -/

namespace TableStore

namespace Disk

variable {disk disk' : Disk} {generation : UInt64} {layout : Layout} {t : Table}

/-! ### Temporary names -/

/-- A temporary name names no table. -/
theorem parse?_temporary (disk : Disk) (generation : UInt64) :
    TableName.parse? (disk.pathOf (TableName.temporary generation)) = none :=
  TableName.parse?_of_isTemporary (TableName.isTemporary_join_temporary disk.path generation)

theorem ne_temporary_of_parse? {name : String}
    (h : TableName.parse? (disk.pathOf name) = some (generation, layout)) (other : UInt64) :
    name ≠ TableName.temporary other := by
  rintro rfl
  rw [parse?_temporary] at h
  simp at h

theorem parse?_file (disk : Disk) (generation : UInt64) (layout : Layout) :
    TableName.parse? (disk.pathOf (TableName.file generation layout)) = some (generation, layout) :=
  TableName.parse?_join_file _ _ _

/-- A temporary file, whatever is in it, does not open, so it changes nothing that opens. -/
theorem SameOutside.openTable_litter
    (h : disk.SameOutside [TableName.temporary generation] disk') (name : String) :
    disk'.openTable name = disk.openTable name := by
  by_cases ht : name = TableName.temporary generation
  · rw [ht, openTable_of_parse? (disk.parse?_temporary generation),
      openTable_of_parse? (disk'.parse?_temporary generation), pathOf_congr h.path]
  · exact h.openTable (by simpa using ht)

theorem isSome_of_openTable {name : String} (h : disk.openTable name = .ok t) :
    (disk.find? name).isSome := by
  obtain ⟨_, _, _, -, -, hf, -⟩ := openTable_eq_ok.mp h
  rw [hf]
  rfl

/-! ### Tables gained -/

/-- A disk on which a table has been published under a generation. -/
structure Gains (disk : Disk) (generation : UInt64) (layout : Layout) (t : Table)
    (disk' : Disk) : Prop where
  sameOutside : disk.SameOutside
    [TableName.temporary generation, TableName.file generation layout] disk'
  openTable : disk'.openTable (TableName.file generation layout) = .ok t
  temporary : disk'.find? (TableName.temporary generation) = none

theorem Gains.generation_eq (h : disk.Gains generation layout t disk') :
    t.generation = generation := by
  obtain ⟨-, found, hp⟩ := of_openTable_eq_ok h.openTable
  rw [parse?_file, Option.some.injEq, Prod.mk.injEq] at hp
  exact hp.1.symm

/-- A disk on which the same files are found has gained the same table. -/
theorem Gains.of_find? {other : Disk} (h : disk.Gains generation layout t disk')
    (hp : other.path = disk'.path) (hf : ∀ name, other.find? name = disk'.find? name) :
    disk.Gains generation layout t other where
  sameOutside := ⟨hp.trans h.sameOutside.path, fun name hn =>
    (hf name).trans (h.sameOutside.find? name hn)⟩
  openTable := (openTable_congr hp (hf _)).trans h.openTable
  temporary := (hf _).trans h.temporary

theorem Gains.eq_of_openTable (h : disk.Gains generation layout t disk') {other : Table}
    (ho : disk'.openTable (TableName.file generation layout) = .ok other) : other = t :=
  Except.ok.inj (ho.symm.trans h.openTable)

theorem Gains.openTable_of_ne (h : disk.Gains generation layout t disk') {name : String}
    (hn : name ≠ TableName.file generation layout) :
    disk'.openTable name = disk.openTable name := by
  by_cases ht : name = TableName.temporary generation
  · rw [ht, openTable_of_parse? (disk.parse?_temporary generation),
      openTable_of_parse? (disk'.parse?_temporary generation), pathOf_congr h.sameOutside.path]
  · exact h.sameOutside.openTable (by simp [ht, hn])

theorem openTable_of_published {d : Draft} (h : d.Published disk disk') {name : String}
    (hn : name ≠ d.fileName) : disk'.openTable name = disk.openTable name := by
  by_cases ht : name = d.temporaryName
  · rw [ht, Draft.temporaryName, openTable_of_parse? (disk.parse?_temporary d.generation),
      openTable_of_parse? (disk'.parse?_temporary d.generation), pathOf_congr h.sameOutside.path]
  · exact h.sameOutside.openTable (by simp [ht, hn])

/-- The names that open after a gain under a fresh generation: the new one, and the old ones. -/
theorem Gains.openTable_iff (h : disk.Gains generation layout t disk')
    (hfresh : ∀ {name other}, disk.openTable name = .ok other → other.generation ≠ generation)
    {name : String} {other : Table} :
    disk'.openTable name = .ok other ↔
      name = TableName.file generation layout ∧ other = t ∨ disk.openTable name = .ok other := by
  by_cases hn : name = TableName.file generation layout
  · have hold : ∀ other, disk.openTable (TableName.file generation layout) ≠ .ok other := by
      intro other ho
      obtain ⟨-, found, hp⟩ := of_openTable_eq_ok ho
      rw [parse?_file, Option.some.injEq, Prod.mk.injEq] at hp
      exact hfresh ho hp.1.symm
    rw [hn, h.openTable, Except.ok.injEq]
    constructor
    · exact fun he => Or.inl ⟨rfl, he.symm⟩
    · rintro (⟨-, rfl⟩ | ho)
      · rfl
      · exact absurd ho (hold other)
  · rw [h.openTable_of_ne hn]
    simp [hn]

/-- The names in use on a disk that gained a table. -/
theorem Gains.isSome (h : disk.Gains generation layout t disk') {name : String}
    (hs : (disk'.find? name).isSome) :
    name = TableName.file generation layout ∨ (disk.find? name).isSome := by
  by_cases ht : name = TableName.temporary generation
  · rw [ht, h.temporary] at hs
    simp at hs
  · by_cases hn : name = TableName.file generation layout
    · exact Or.inl hn
    · rw [h.sameOutside.find? name (by simp [ht, hn])] at hs
      exact Or.inr hs

/-! ### Files removed -/

/-- The disk without some files. -/
def removeFiles (names : List String) (disk : Disk) : Disk := names.foldl removeFile disk

theorem removeFiles_sameOutside (names : List String) (disk : Disk) :
    disk.SameOutside names (disk.removeFiles names) := by
  induction names generalizing disk with
  | nil => exact .refl _ _
  | cons name names ih =>
    have hfirst := disk.removeFile_sameOutside name
    exact (hfirst.mono (by simp)).trans ((ih _).mono fun _ h => List.mem_cons_of_mem _ h)

theorem find?_removeFiles_or (names : List String) (disk : Disk) (other : String) :
    (disk.removeFiles names).find? other = disk.find? other ∨
      (disk.removeFiles names).find? other = none := by
  induction names generalizing disk with
  | nil => exact Or.inl rfl
  | cons name names ih =>
    rcases ih (disk.removeFile name) with h | h
    · rcases disk.find?_removeFile_or name other with h' | h'
      · exact Or.inl (h.trans h')
      · exact Or.inr (h.trans h')
    · exact Or.inr h

theorem isSome_of_removeFiles {names : List String} {other : String}
    (h : ((disk.removeFiles names).find? other).isSome) : (disk.find? other).isSome := by
  rcases disk.find?_removeFiles_or names other with he | he
  · exact he ▸ h
  · simp [he] at h

theorem find?_removeFiles {names : List String} {name : String} {image : Array UInt8}
    (hm : name ∈ names) (hr : disk.reaches name = true)
    (hf : disk.find? name = some (.file image)) : (disk.removeFiles names).find? name = none := by
  induction names generalizing disk with
  | nil => simp at hm
  | cons first names ih =>
    show ((disk.removeFile first).removeFiles names).find? name = none
    by_cases he : first = name
    · have hgone := find?_removeFile hr hf
      rw [he]
      rcases (disk.removeFile name).find?_removeFiles_or names name with h | h
      · rw [h, hgone]
      · exact h
    · have hsame := disk.removeFile_sameOutside first
      have hout : name ∉ [first] := by simpa using Ne.symm he
      refine ih ?_ ((reaches_congr hsame.path name).trans hr) ((hsame.find? name hout).trans hf)
      rcases List.mem_cons.mp hm with h | h
      · exact absurd h.symm he
      · exact h

/-- What opens when files have been removed: what opened before and is not one of them. -/
theorem openTable_removeFiles_iff {names : List String} {name : String} :
    (disk.removeFiles names).openTable name = .ok t ↔
      name ∉ names ∧ disk.openTable name = .ok t := by
  have hsame := disk.removeFiles_sameOutside names
  by_cases hm : name ∈ names
  · refine iff_of_false (fun ho => ?_) fun h => h.1 hm
    have hsome := isSome_of_openTable ho
    rcases disk.find?_removeFiles_or names name with he | he
    · obtain ⟨_, _, image, -, hreach, hfile, -⟩ :=
        openTable_eq_ok.mp ((openTable_congr hsame.path he).symm.trans ho)
      rw [find?_removeFiles hm hreach hfile] at hsome
      simp at hsome
    · rw [he] at hsome
      simp at hsome
  · rw [hsame.openTable hm]
    simp [hm]

end Disk

end TableStore

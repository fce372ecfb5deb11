import TableStore.Proofs.Outcome
import TableStore.Proofs.Table.Names
import TableStore.Store.Basic

/-! What file operations do to the entries of a disk. Each one changes the entries under the names
it is about and no others, and one that is refused changes none; a table is opened from the entry
under its name and the path of the directory alone. -/

namespace TableStore

namespace Directory

theorem mem_entries_iff {d : Directory} {name : String} {entry : Entry} :
    (name, entry) ∈ d.entries ↔ d.find? name = some entry := by
  obtain ⟨entries, hnodup⟩ := d
  unfold find?
  induction entries with
  | nil => simp
  | cons e rest ih =>
    rw [List.map_cons, List.nodup_cons] at hnodup
    rw [List.mem_cons, List.find?_cons]
    by_cases he : e.1 = name
    · have hrest : (name, entry) ∉ rest := fun hm =>
        hnodup.1 (he ▸ List.mem_map_of_mem (f := Prod.fst) hm)
      simp only [hrest, or_false, he, beq_self_eq_true, Option.map_some, Option.some.injEq]
      exact ⟨fun h => by rw [← h], fun h => by rw [← he, ← h]⟩
    · have hne : (name, entry) ≠ e := fun h => he (h ▸ rfl)
      simp only [hne, false_or, beq_eq_false_iff_ne.mpr he]
      exact ih hnodup.2

end Directory

namespace Disk

/-- The entry under a name. -/
def find? (disk : Disk) (name : String) : Option Entry := disk.directory.bind (·.find? name)

/-- Two disks agree on the path and on the entries under all but the given names. -/
structure SameOutside (names : List String) (disk disk' : Disk) : Prop where
  path : disk'.path = disk.path
  find? : ∀ name, name ∉ names → disk'.find? name = disk.find? name

variable {disk disk' disk'' : Disk} {names : List String}

theorem mem_listing_iff {name : String} {entry : Entry} :
    (name, entry) ∈ disk.listing ↔ disk.find? name = some entry := by
  unfold listing find?
  cases disk.directory with
  | none => simp
  | some d => simpa using Directory.mem_entries_iff

theorem SameOutside.refl (names : List String) (disk : Disk) : SameOutside names disk disk :=
  ⟨rfl, fun _ _ => rfl⟩

theorem SameOutside.trans (h : SameOutside names disk disk')
    (h' : SameOutside names disk' disk'') : SameOutside names disk disk'' :=
  ⟨h'.path.trans h.path, fun name hn => (h'.find? name hn).trans (h.find? name hn)⟩

theorem SameOutside.mono {more : List String} (h : SameOutside names disk disk')
    (hs : ∀ name ∈ names, name ∈ more) : SameOutside more disk disk' :=
  ⟨h.path, fun name hn => h.find? name fun hm => hn (hs name hm)⟩

/-! ### Opening tables -/

theorem pathOf_congr (h : disk'.path = disk.path) (name : String) :
    disk'.pathOf name = disk.pathOf name := by rw [pathOf, h, pathOf]

theorem reaches_congr (h : disk'.path = disk.path) (name : String) :
    disk'.reaches name = disk.reaches name := by rw [reaches, pathOf_congr h, reaches]

theorem read_eq (disk : Disk) (name : String) :
    disk.read name =
      if disk.reaches name then
        match disk.find? name with
        | some (.file image) => .ok image
        | some .folder => .error .isFolder
        | none => .error .notFound
      else .error .longPath := by
  unfold read find?
  cases disk.directory <;> rfl

theorem read_eq_ok {name : String} {image : Array UInt8} :
    disk.read name = .ok image ↔
      disk.reaches name = true ∧ disk.find? name = some (.file image) := by
  rw [read_eq]
  by_cases hr : disk.reaches name = true
  · rw [if_pos hr]
    split <;> simp_all
  · simp [hr]

/-- When a name opens as a table. -/
theorem openTable_eq_ok {name : String} {t : Table} :
    disk.openTable name = .ok t ↔ ∃ generation layout image,
      TableName.parse? (disk.pathOf name) = some (generation, layout) ∧
      disk.reaches name = true ∧ disk.find? name = some (.file image) ∧
      Table.parse (disk.pathOf name) generation layout image = .ok t := by
  unfold openTable Table.ofFile
  cases hp : TableName.parse? (disk.pathOf name) with
  | none => simp
  | some found =>
    obtain ⟨generation, layout⟩ := found
    simp only [Option.some.injEq, Prod.mk.injEq]
    cases hr : disk.read name with
    | error cause =>
      have hnot : ∀ image, ¬ (disk.reaches name = true ∧ disk.find? name = some (.file image)) :=
        fun image h => by simp [read_eq_ok.mpr h] at hr
      constructor
      · simp
      · rintro ⟨_, _, image, -, hreach, hfile, -⟩
        exact absurd ⟨hreach, hfile⟩ (hnot image)
    | ok image =>
      obtain ⟨hreach, hfile⟩ := read_eq_ok.mp hr
      constructor
      · intro h
        exact ⟨generation, layout, image, ⟨rfl, rfl⟩, hreach, hfile, h⟩
      · rintro ⟨_, _, image', ⟨rfl, rfl⟩, -, hfile', h⟩
        rw [hfile, Option.some.injEq, Entry.file.injEq] at hfile'
        rw [hfile']
        exact h

/-- Names that are no table's do not open. -/
theorem openTable_of_parse? {name : String} (h : TableName.parse? (disk.pathOf name) = none) :
    disk.openTable name = .error (.misfit (.tableName (disk.pathOf name))) := by
  rw [openTable, Table.ofFile, h]

theorem openTable_congr {name : String} (hp : disk'.path = disk.path)
    (hf : disk'.find? name = disk.find? name) : disk'.openTable name = disk.openTable name := by
  rw [openTable, openTable, read_eq, read_eq, pathOf_congr hp, reaches_congr hp, hf]

theorem SameOutside.openTable (h : SameOutside names disk disk') {name : String}
    (hn : name ∉ names) : disk'.openTable name = disk.openTable name :=
  openTable_congr h.path (h.find? name hn)

end Disk

/-- A table has the path and the generation it was read under. -/
theorem Table.of_parse_eq_ok {path : String} {generation : UInt64} {layout : Layout}
    {image : Array UInt8} {t : Table} (h : parse path generation layout image = .ok t) :
    t.path = path ∧ t.generation = generation := by
  unfold parse at h
  by_cases hs : image.size < 8
  · simp [hs] at h
  · by_cases hr : image.size - 8 < numberOf image (image.size - 8) 8 * 8
    · simp [hs, hr] at h
    · simp only [if_neg hs, if_neg hr, bind_eq_ok] at h
      obtain ⟨⟨recordsEnd, filter⟩, -, h⟩ := h
      dsimp only at h
      split at h
      · simp at h
      · rw [pure_eq_ok, Except.ok.injEq] at h
        rw [← h]
        exact ⟨rfl, rfl⟩

namespace Disk

variable {disk disk' : Disk} {names : List String}

/-- A table that was opened under a name has that path, and the generation that the path names. -/
theorem of_openTable_eq_ok {name : String} {t : Table} (h : disk.openTable name = .ok t) :
    t.path = disk.pathOf name ∧
      ∃ layout, TableName.parse? (disk.pathOf name) = some (t.generation, layout) := by
  obtain ⟨generation, layout, image, hp, -, -, ht⟩ := openTable_eq_ok.mp h
  obtain ⟨hpath, hgen⟩ := Table.of_parse_eq_ok ht
  exact ⟨hpath, layout, hgen ▸ hp⟩

theorem fileName_of_openTable {name : String} {t : Table} (h : disk.openTable name = .ok t)
    (hn : Text.Path.IsEntryName name) : t.fileName = name := by
  rw [Table.fileName, (of_openTable_eq_ok h).1, pathOf, Text.Path.finalComponent?_join _ hn]
  simp

/-! ### Operations -/

theorem find?_of_directory {d : Directory} (h : disk.directory = some d) (name : String) :
    disk.find? name = d.find? name := by rw [find?, h, Option.bind_some]

/-- An operation that is refused changes nothing but the plan of refusals, one that succeeds
changes the directory. -/
theorem perform_cases (disk : Disk) (names : List String)
    (operation : Directory → Except DiskFault Directory) :
    (∃ fault, disk.perform names operation =
        (some fault, { disk with refusals := disk.refusals.tail })) ∨
      ∃ d d', disk.directory = some d ∧ operation d = .ok d' ∧
        (∀ name ∈ names, disk.reaches name = true) ∧ disk.perform names operation =
          (none, { disk with directory := some d', refusals := disk.refusals.tail }) := by
  unfold perform
  simp only
  split
  · exact Or.inl ⟨_, rfl⟩
  · split
    · exact Or.inl ⟨_, rfl⟩
    · rename_i hr
      cases hd : disk.directory with
      | none => exact Or.inl ⟨_, rfl⟩
      | some d =>
        cases ho : operation d with
        | error cause =>
          refine Or.inl ⟨.disk cause, ?_⟩
          dsimp only
          rw [ho]
        | ok d' =>
          refine Or.inr ⟨d, d', rfl, ho, by simpa using hr, ?_⟩
          dsimp only
          rw [ho]

/-- What an operation on one or two names leaves of the disk, whether it succeeds or not. -/
theorem perform_sameOutside {names : List String}
    {operation : Directory → Except DiskFault Directory}
    (h : ∀ d d', operation d = .ok d' → ∀ name, name ∉ names → d'.find? name = d.find? name) :
    disk.SameOutside names (disk.perform names operation).2 := by
  rcases disk.perform_cases names operation with ⟨fault, hp⟩ | ⟨d, d', hd, ho, -, hp⟩
  · rw [hp]
    exact ⟨rfl, fun _ _ => rfl⟩
  · rw [hp]
    refine ⟨rfl, fun name hn => ?_⟩
    rw [find?_of_directory hd, ← h d d' ho name hn]
    rfl

theorem perform_eq_some {names : List String} {operation : Directory → Except DiskFault Directory}
    {fault : Fault} {next : Disk} (h : disk.perform names operation = (some fault, next)) :
    disk.SameOutside [] next := by
  rcases disk.perform_cases names operation with ⟨fault', hp⟩ | ⟨d, d', -, -, -, hp⟩
  · rw [hp, Prod.mk.injEq] at h
    rw [← h.2]
    exact ⟨rfl, fun _ _ => rfl⟩
  · rw [hp] at h
    simp at h

theorem create_sameOutside (disk : Disk) (name : String) :
    disk.SameOutside [name] (disk.create name).2 := by
  apply perform_sameOutside
  intro d d' h other hn
  rw [List.mem_singleton] at hn
  unfold Directory.create at h
  split at h
  · simp at h
  · rw [← Except.ok.inj h, Directory.find?_put, if_neg (Ne.symm hn)]

theorem write_sameOutside (disk : Disk) (name : String) (bytes : Array UInt8) :
    disk.SameOutside [name] (disk.write name bytes).2 := by
  apply perform_sameOutside
  intro d d' h other hn
  rw [List.mem_singleton] at hn
  unfold Directory.write at h
  split at h
  · split at h
    · simp at h
    · rw [← Except.ok.inj h, Directory.find?_put, if_neg (Ne.symm hn)]
  · simp at h
  · simp at h

theorem rename_sameOutside (disk : Disk) (name target : String) :
    disk.SameOutside [name, target] (disk.rename name target).2 := by
  apply perform_sameOutside
  intro d d' h other hn
  rw [List.mem_cons, List.mem_singleton, not_or] at hn
  unfold Directory.rename at h
  split at h
  · simp at h
  · simp at h
  · simp at h
  · rw [← Except.ok.inj h, Directory.find?_put, if_neg (Ne.symm hn.2), Directory.find?_erase,
      if_neg (Ne.symm hn.1)]

theorem removeFile_sameOutside (disk : Disk) (name : String) :
    disk.SameOutside [name] (disk.removeFile name) := by
  unfold removeFile
  split
  · refine ⟨rfl, fun other hn => ?_⟩
    rw [List.mem_singleton] at hn
    unfold find?
    cases disk.directory with
    | none => rfl
    | some d =>
      simp only [Option.map_some, Option.bind_some]
      unfold Directory.removeFile
      split
      · rw [Directory.find?_erase, if_neg (Ne.symm hn)]
      · rfl
  · exact SameOutside.refl _ _

theorem find?_removeFile {name : String} {image : Array UInt8} (hr : disk.reaches name = true)
    (hf : disk.find? name = some (.file image)) : (disk.removeFile name).find? name = none := by
  unfold find? at hf
  rw [removeFile, if_pos hr, find?]
  cases hd : disk.directory with
  | none => simp [hd] at hf
  | some d =>
    rw [hd, Option.bind_some] at hf
    simp [Directory.removeFile, hf]

/-- Removing a file leaves it as it was or takes it away. -/
theorem find?_removeFile_or (disk : Disk) (name other : String) :
    (disk.removeFile name).find? other = disk.find? other ∨
      (disk.removeFile name).find? other = none := by
  unfold removeFile
  split
  · unfold find?
    cases disk.directory with
    | none => exact Or.inl rfl
    | some d =>
      simp only [Option.map_some, Option.bind_some]
      unfold Directory.removeFile
      split
      · rw [Directory.find?_erase]
        split
        · exact Or.inr rfl
        · exact Or.inl rfl
      · exact Or.inl rfl
  · exact Or.inl rfl

theorem write_eq_none {name : String} {bytes : Array UInt8} {next : Disk}
    (h : disk.write name bytes = (none, next)) :
    bytes.size ≤ Directory.maxFileSize ∧ next.find? name = some (.file bytes) := by
  rcases disk.perform_cases [name] (Directory.write name bytes) with
    ⟨fault, hp⟩ | ⟨d, d', -, ho, -, hp⟩
  · rw [write, hp] at h
    simp at h
  · rw [write, hp, Prod.mk.injEq] at h
    rw [← h.2]
    show _ ∧ d'.find? name = _
    unfold Directory.write at ho
    split at ho
    · split at ho
      · simp at ho
      · rename_i hs
        rw [← Except.ok.inj ho, Directory.find?_put, if_pos rfl]
        exact ⟨Nat.not_lt.mp hs, rfl⟩
    · simp at ho
    · simp at ho

theorem rename_eq_none {name target : String} {next : Disk}
    (h : disk.rename name target = (none, next)) {entry : Entry}
    (he : disk.find? name = some entry) (hn : name ≠ target) :
    disk.reaches target = true ∧ next.find? target = some entry ∧ next.find? name = none := by
  rcases disk.perform_cases [name, target] (Directory.rename name target) with
    ⟨fault, hp⟩ | ⟨d, d', hd, ho, hr, hp⟩
  · rw [rename, hp] at h
    simp at h
  · rw [rename, hp, Prod.mk.injEq] at h
    rw [find?_of_directory hd] at he
    rw [← h.2]
    refine ⟨hr target (by simp), ?_⟩
    show d'.find? target = _ ∧ d'.find? name = _
    unfold Directory.rename at ho
    split at ho
    · simp at ho
    · simp at ho
    · simp at ho
    · rename_i found hf _ _
      rw [he, Option.some.injEq] at hf
      rw [← Except.ok.inj ho, Directory.find?_put, if_pos rfl, Directory.find?_put,
        if_neg (Ne.symm hn), Directory.find?_erase, if_pos rfl, hf]
      exact ⟨rfl, rfl⟩

/-! ### One operation after the other -/

/-- Operations that each change one name at most change no other together. -/
theorem performAll_sameOutside {operations : List (Disk → Option Fault × Disk)}
    (h : ∀ operation ∈ operations, ∀ disk : Disk, disk.SameOutside names (operation disk).2)
    (disk : Disk) : disk.SameOutside names (disk.performAll operations).2 := by
  induction operations generalizing disk with
  | nil => exact .refl _ _
  | cons operation rest ih =>
    have hfirst := h operation List.mem_cons_self disk
    rw [performAll]
    rcases ho : operation disk with ⟨_ | fault, next⟩
    · rw [ho] at hfirst
      exact hfirst.trans (ih (fun other hm => h other (List.mem_cons_of_mem _ hm)) next)
    · rw [ho] at hfirst
      exact hfirst

theorem performAll_concat (operations : List (Disk → Option Fault × Disk))
    (last : Disk → Option Fault × Disk) (disk : Disk) :
    disk.performAll (operations ++ [last]) =
      match disk.performAll operations with
      | (some fault, disk) => (some fault, disk)
      | (none, disk) => last disk := by
  induction operations generalizing disk with
  | nil =>
    show disk.performAll [last] = last disk
    rw [performAll]
    rcases last disk with ⟨_ | fault, next⟩ <;> rfl
  | cons operation rest ih =>
    rw [List.cons_append, performAll, performAll]
    rcases operation disk with ⟨_ | fault, next⟩
    · exact ih next
    · rfl

end Disk

end TableStore

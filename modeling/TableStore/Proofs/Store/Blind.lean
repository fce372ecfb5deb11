import TableStore.Proofs.Disk.Building
import TableStore.Proofs.Store.Mirrors

/-! Stores whose filters are one word too wide to be told of. Their settings are valid, and their
flushes and compactions succeed, but the tables that they register deny every key. What could be
read from memory, or from the tables that were merged, is not found from then on, before and after
the directory is opened anew, though the rows are there and a range still yields them. -/

namespace TableStore

/-- Tables without filters bring nothing to the filter of a draft. -/
theorem Draft.foldl_seedFrom_of_plain {tables : List Table} (h : ∀ t ∈ tables, t.filter = none)
    (d : Draft) : tables.foldl seedFrom d = d := by
  induction tables with
  | nil => rfl
  | cons t tables ih =>
    rw [List.foldl_cons, seedFrom, h t List.mem_cons_self]
    exact ih fun u hu => h u (List.mem_cons_of_mem t hu)

namespace Store

variable {s r u done : Store} {settings : Settings} {disk disk' : Disk} {task : FlushTask}
  {cells : List Cell} {t : Table}

/-! ### Reading past the filter -/

/-- Where all registered tables deny their keys, only what is in memory is found. -/
theorem version_of_isBlind (h : ∀ t ∈ s.tables.values, t.IsBlind) (key : Bytes) :
    s.version key = .ok (s.memory.get key) := by
  have hall : s.tables.values.mapM (·.get? key) = .ok (s.tables.values.map fun _ => none) := by
    rw [mapM_eq_ok, List.map_map]
    exact List.map_congr_left fun t ht => (h t ht).get? key
  have hnone : (s.tables.values.map fun _ => (none : Option Cell)).filterMap
      (·.map Cell.version) = [] := by simp
  rw [version, hall, ok_bind, hnone, Version.newest_cons, Version.newest_nil,
    Version.later_absent_right]
  rfl

/-- A range over one table, with nothing in memory, yields the live pairs of its rows. -/
theorem exists_range_of_rows (hm : s.memory.IsSound) (hv : ∀ key, s.memory.versions key = [])
    (ht : s.tables.values = [t]) (hrows : t.cellsFrom 0 = cells.map .ok) (ha : Ascending cells)
    (limit : Option Bytes) : ∃ cursor, s.range [] limit = .ok cursor ∧
      cursor.toList s.memory = (livePairs limit cells).map .ok := by
  have hscan : s.tables.values.mapM (·.scan []) = .ok [cells.map .ok] := by
    rw [mapM_eq_ok, ht, List.map_singleton, Table.scan_nil hrows]
    rfl
  obtain ⟨inMemory, hmemory, hmasc, hmlook⟩ := hm.toList_cursor []
  obtain rfl : inMemory = [] := hmasc.eq_of_lookup List.Pairwise.nil fun key => by
    rw [hmlook, hv, if_neg (List.not_lt_nil key)]
    rfl
  have hasc : ∀ source ∈ [cells, []], Ascending source := by
    rintro source hs
    rcases List.mem_pair.mp hs with rfl | rfl
    · exact ha
    · exact List.Pairwise.nil
  obtain ⟨merged, hmerge, hmergeAsc, hlook⟩ := mergeLists_ascending hasc
  obtain rfl : merged = cells := hmergeAsc.eq_of_lookup ha fun key => by
    rw [hlook, List.filterMap_cons, List.filterMap_cons, List.filterMap_nil, lookup_nil]
    cases lookup key cells <;> simp [Version.newest?]
  obtain ⟨cursor, hrange, hlist⟩ := exists_range hscan limit
  refine ⟨cursor, hrange, ?_⟩
  rw [hlist, hmemory, ← RangeCursor.answers_ok]
  exact congrArg (RangeCursor.answers limit) hmerge

/-! ### Publishing -/

/-- Flushing such a table is done, but the table that is taken in denies its keys. -/
theorem exists_flushTable_wide (hl : s.settings.layout = .filtered)
    (hb : s.settings.filterBits = wideBits) (hcells : task.buffer.cells = cells)
    (hne : cells ≠ []) (ha : Ascending cells) (hs : ∀ cell ∈ cells, cell.IsStorable)
    (hlow : ∀ cell ∈ cells, Filter.IsLow cell.key)
    (hsize : Draft.imageSize .filtered wideBits cells ≤ Directory.maxFileSize)
    (hdisk : s.disk.Admits task.generation .filtered) :
    ∃ summary t disk,
      Draft.build s.disk task.generation s.settings.layout s.settings.filterBits
        (task.buffer.cells.map .ok) = (.ok summary, disk) ∧
      s.flushTable task = (none, ({ s with disk } : Store).takeInAll (handover task t)) ∧
      s.disk.Gains task.generation .filtered t disk ∧ t.IsBlind ∧
      t.cellsFrom 0 = cells.map .ok := by
  obtain ⟨d, disk, hbuild, hpublished, hholds, hform, hfilter, -⟩ :=
    Draft.exists_build ha hs hdisk hsize
  obtain ⟨t, hopen, hblind, hrows⟩ := hpublished.openTable_wide hholds hform hfilter
    (List.forall_mem_map.mpr hlow)
  have hgains := hpublished.gains hform hopen
  refine ⟨d.summary disk, t, disk, by rw [hl, hb, hcells, hbuild], ?_, hgains, hblind, hrows⟩
  have hfull : task.buffer.isEmpty = false := by
    rwa [Buffer.isEmpty, hcells, List.isEmpty_eq_false_iff]
  rw [flushTable, if_neg (by simp [hfull]), hl, hb, hcells, hbuild]
  dsimp only
  rw [hl, hgains.openTable]

/-- Compacting tables without filters into such a table is done as well. -/
theorem exists_compact_wide {sources : List (List Item)} (hl : s.settings.layout = .filtered)
    (hb : s.settings.filterBits = wideBits) (hmany : ¬ s.tables.values.length < 2)
    (hr : s.HasRoomFor 1) (hplain : ∀ t ∈ s.tables.values, t.filter = none)
    (hscan : s.tables.values.mapM (·.scan []) = .ok sources)
    (hmerge : mergeLists sources = cells.map .ok) (ha : Ascending cells)
    (hs : ∀ cell ∈ cells, cell.IsStorable) (hlow : ∀ cell ∈ cells, Filter.IsLow cell.key)
    (hsize : Draft.imageSize .filtered wideBits cells ≤ Directory.maxFileSize)
    (hdisk : s.disk.Admits s.memory.nextGeneration .filtered) :
    ∃ compaction t disk, s.compact = (.ok (some compaction), s.replaced t disk) ∧
      t.generation = s.memory.nextGeneration ∧ t.IsBlind ∧ t.cellsFrom 0 = cells.map .ok := by
  obtain ⟨d, hall, hholds, hform, hfilter, himage⟩ :=
    Draft.exists_filled s.memory.nextGeneration .filtered wideBits ha hs
  have hfill : Draft.fillFrom s.tables.values
      (Draft.empty s.memory.nextGeneration .filtered wideBits) = .ok d := by
    rw [Draft.fillFrom, hscan, ok_bind, Draft.foldl_seedFrom_of_plain hplain, hmerge, hall]
  obtain ⟨disk, hpublish, hpublished⟩ := Draft.publish_eq_ok hdisk hfill hform (himage ▸ hsize)
  obtain ⟨t, hopen, hblind, hrows⟩ := hpublished.openTable_wide hholds hform hfilter
    (List.forall_mem_map.mpr hlow)
  have hgains := hpublished.gains hform hopen
  refine ⟨⟨s.tables.values.map Table.generation, d.summary disk⟩, t, disk, ?_,
    hgains.generation_eq, hblind, hrows⟩
  rw [compact_of_publishMerge hmany hr, publishMerge, hl, hb, hpublish]
  dsimp only
  rw [hgains.openTable]
  dsimp only
  rw [replaceTables_eq]
  rfl

/-- What is registered when a directory of no tables that gained one is opened. -/
theorem Opened.tables_eq_of_gains {generation : UInt64} {layout : Layout}
    (h : Opened settings disk' r) (hd : disk.Gains generation layout t disk')
    (hnone : ∀ name other, disk.openTable name ≠ .ok other) :
    r.tables = Generations.empty.insert generation t := by
  have hiff : ∀ {name other}, disk'.openTable name = .ok other ↔
      name = TableName.file generation layout ∧ other = t ∨ disk.openTable name = .ok other :=
    hd.openTable_iff fun {name other} ho => absurd ho (hnone name other)
  have honly : ∀ {name other}, disk'.openTable name = .ok other → other = t := by
    intro name other ho
    exact (hiff.mp ho).elim And.right fun ho => absurd ho (hnone name other)
  have hdistinct : disk'.IsDistinct := by
    intro name name' u u' hu hu' _
    rw [honly hu, honly hu']
  refine Generations.ext_find? fun other => Option.ext fun u => ?_
  rw [h.find?_eq_some_iff hdistinct, Generations.find?_insert, Generations.find?_empty]
  constructor
  · rintro ⟨rfl, name, ho⟩
    rw [honly ho, if_pos hd.generation_eq.symm]
  · intro hu
    split at hu
    · rename_i he
      obtain rfl := Option.some.inj hu
      exact ⟨hd.generation_eq.trans he, _, hd.openTable⟩
    · simp at hu

/-! ### What the worker does at rest -/

/-- Settings under which every filter has one word more than four bytes can count. -/
def wide : Settings := { filterBits := wideBits, flushThreshold := 0 }

theorem validate_wide : wide.validate = .ok () := by decide +kernel

/-- The one cell that is written. -/
def lone : Cell := ⟨[97], .present 1 [98]⟩

theorem ascending_lone : Ascending [lone] := List.pairwise_singleton _ _

theorem isStorable_lone : ∀ cell ∈ [lone], cell.IsStorable := by decide

theorem isLow_lone : ∀ cell ∈ [lone], Filter.IsLow cell.key := by decide +kernel

theorem imageSize_lone : Draft.imageSize .filtered wideBits [lone] ≤ Directory.maxFileSize := by
  rw [Draft.imageSize, Draft.filterSize, ← Filter.size_insertAll _ [], Filter.size_wide]
  decide

/-- A range yields the cell, and no key is found. -/
structure Conceals (s : Store) : Prop where
  version : ∀ key, s.version key = .ok .absent
  range : ∃ cursor, s.range [] none = .ok cursor ∧ cursor.toList s.memory = [.ok ([97], [98])]

/-- One table that denies its key, and nothing in memory. -/
theorem conceals_of_rows (hm : s.memory.IsSound) (hv : ∀ key, s.memory.versions key = [])
    (ht : s.tables.values = [t]) (hb : t.IsBlind) (hrows : t.cellsFrom 0 = [.ok lone]) :
    s.Conceals where
  version := by
    intro key
    rw [version_of_isBlind (by simpa [ht] using hb), Memory.get_eq hm.buffers, hv,
      Version.newest_nil]
  range :=
    have hall : t.cellsFrom 0 = [lone].map .ok := hrows
    exists_range_of_rows hm hv ht hall ascending_lone none

/-- A directory opens that gained such a table as its first. -/
theorem exists_conceals_of_gains (hv : settings.validate = .ok ()) (hp : disk.pathFault? = none)
    (hnone : ∀ name, disk.find? name = none) (hd : disk.Gains 1 .filtered t disk')
    (hb : t.IsBlind) (hrows : t.cellsFrom 0 = [.ok lone]) :
    ∃ r, load settings disk' = .ok r ∧ r.Conceals ∧
      r.tables = Generations.empty.insert 1 t ∧ r.HasRoomFor 1 := by
  have hgeneration : ∀ {name generation layout}, (disk'.find? name).isSome →
      TableName.parse? (disk'.pathOf name) = some (generation, layout) → generation = 1 := by
    intro name generation layout hs hparsed
    rw [Disk.pathOf_congr hd.sameOutside.path] at hparsed
    rcases hd.isSome hs with rfl | hs
    · rw [Disk.parse?_file, Option.some.injEq, Prod.mk.injEq] at hparsed
      exact hparsed.1.symm
    · simp [hnone] at hs
  have hroom : disk'.HasRoom := by
    intro name generation layout hs hparsed
    rw [hgeneration hs hparsed]
    decide
  obtain ⟨r, hl⟩ := exists_load hv ((pathFault?_congr hd.sameOutside.path).trans hp) hroom
  have ho := opened_of_load hl
  have htables : r.tables = Generations.empty.insert 1 t :=
    ho.tables_eq_of_gains hd fun name other hopen => by
      simpa [hnone] using Disk.isSome_of_openTable hopen
  obtain ⟨greatest, hmemory, -, -, hgreatest⟩ := ho.memory
  have hmore : r.HasRoomFor 1 := by
    rw [HasRoomFor, hmemory]
    show (greatest + 1 + 1).toNat + 1 < UInt64.size
    rcases hgreatest with rfl | ⟨name, layout, hs, hparsed⟩
    · decide
    · rw [hgeneration hs hparsed]
      decide
  exact ⟨r, hl, conceals_of_rows (hmemory ▸ Memory.isSound_empty _ _ _ _) ho.versions_eq
    (htables ▸ rfl) hb hrows, htables, hmore⟩

/-- No map is shown by reads that disagree. -/
theorem Conceals.not_shows (h : s.Conceals) (map : Bytes → Version) : ¬ s.Shows map := by
  intro hs
  obtain ⟨cursor, hrange, hlist⟩ := h.range
  obtain ⟨cursor', pairs, hrange', hlist', hpairs⟩ := hs.range [] none
  obtain rfl := Except.ok.inj (hrange.symm.trans hrange')
  have hmem : ([97], [98]) ∈ pairs := by
    have hin : Except.ok ([97], [98]) ∈ pairs.map (Except.ok (ε := Fault)) := by
      rw [← hlist', hlist]
      exact List.mem_singleton_self _
    obtain ⟨pair, hp, he⟩ := List.mem_map.mp hin
    exact Except.ok.inj he ▸ hp
  have hlive := ((hpairs.mem_iff _ _).mp hmem).2.2
  have habsent := (hs.version [97]).symm.trans (h.version [97])
  rw [Except.ok.inj habsent] at hlive
  simp [Version.data?] at hlive

/-- The task of the table that holds the cell. -/
def loneTask : FlushTask := ⟨1, (Buffer.empty wideBits).write lone, false⟩

/-- A store that has been opened with these settings on an empty directory. -/
def fresh : Store where
  settings := wide
  disk := .ofEmpty "data"
  memory := .empty 0 wideBits 1 2
  tables := .empty
  backlog := []

/-- The cell has been put, and its table has been rotated. -/
def filled : Store := { fresh with memory := { Memory.empty 0 wideBits 2 3 with
  pending := Generations.empty.insert 1 loneTask.buffer, queue := [loneTask] } }

/-- The worker has received the task. -/
def received : Store := { filled with
  memory := { filled.memory with queue := [] }, backlog := [loneTask] }

/-- The table has been published on a disk and taken in. -/
def flushed (t : Table) (disk : Disk) : Store :=
  { ({ received with disk } : Store).takeInAll (handover loneTask t) with backlog := [] }

theorem load_wide : load wide (.ofEmpty "data") = .ok fresh := rfl

theorem put_fresh : fresh.put [97] [98] 1 = .ok filled := rfl

theorem run_received : Run fresh [lone] received :=
  (Run.refl.step (by decide) (.put put_fresh)).step (by decide) (.work (.receive rfl))

/-- The cell is found in memory. -/
theorem version_received : received.version [97] = .ok (.present 1 [98]) := by
  have hsound : ∀ b ∈ received.memory.tables, b.IsSound := by
    intro b hb
    rcases List.mem_pair.mp hb with rfl | rfl
    · exact (Buffer.isSound_empty _).write lone
    · exact Buffer.isSound_empty _
  rw [Store.version, Memory.get_eq hsound]
  rfl

/-- Its table is flushed, and denies it. -/
theorem exists_flushTable_received : ∃ summary t disk,
    Draft.build received.disk 1 .filtered wideBits (loneTask.buffer.cells.map .ok) =
      (.ok summary, disk) ∧
    received.flushTable loneTask = (none, ({ received with disk } : Store).takeInAll
      (handover loneTask t)) ∧
    received.disk.Gains 1 .filtered t disk ∧ t.IsBlind ∧ t.cellsFrom 0 = [.ok lone] := by
  have hlayout : received.settings.layout = .filtered := rfl
  have hbits : received.settings.filterBits = wideBits := rfl
  have hcells : loneTask.buffer.cells = [lone] := rfl
  have hdisk : received.disk.Admits loneTask.generation .filtered :=
    ⟨rfl, by simp [received, filled, fresh, Disk.ofEmpty], by decide +kernel⟩
  have hne : [lone] ≠ [] := List.cons_ne_nil _ _
  obtain ⟨summary, t, disk, hbuild, hflush, hgains, hblind, hrows⟩ :=
    exists_flushTable_wide hlayout hbits hcells hne ascending_lone isStorable_lone
      isLow_lone imageSize_lone hdisk
  exact ⟨summary, t, disk, hbuild, hflush, hgains, hblind, hrows⟩

theorem run_flushed (h : received.flushTable loneTask =
    (none, ({ received with disk } : Store).takeInAll (handover loneTask t))) :
    Run fresh [lone] (flushed t disk) :=
  run_received.step (by decide) (.work (.flush rfl h))

/-- When it has been flushed, the cell is not found any more. -/
theorem conceals_flushed (hb : t.IsBlind) (hrows : t.cellsFrom 0 = [.ok lone]) :
    (flushed t disk).Conceals :=
  conceals_of_rows ⟨fun _ hm => List.mem_singleton.mp hm ▸ Buffer.isSound_empty _, rfl⟩
    (fun _ => rfl) rfl hb hrows

end Store

end TableStore

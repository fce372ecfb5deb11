import TableStore.Proofs.Store.Blind

/-! What is found when a process stops in the middle of writing a table. Until the table has its
final name, the directory differs from what it was in the temporary file alone, whatever that holds,
and opening takes no notice of it. From then on a flushed table is there with all its cells. The
table of a compaction has the greatest of all generations and shows of every key what its inputs
show together, so it stands in for those that are gone and agrees with those that are left behind,
also where stamps are equal. -/

namespace TableStore

namespace Store

variable {s r : Store} {settings : Settings} {disk disk' : Disk} {task : FlushTask}
  {rest : List FlushTask}

/-! ### Disks that a stopped process leaves behind -/

/-- The disks on which the process may have stopped while it flushed a task: the temporary file
holds anything at all, or the table has been published. -/
inductive FlushStopped (s : Store) (task : FlushTask) : Disk → Prop
  | unfinished {disk : Disk} :
    s.disk.SameOutside [TableName.temporary task.generation] disk → FlushStopped s task disk
  | published {summary : Summary} {disk : Disk} :
    Draft.build s.disk task.generation s.settings.layout s.settings.filterBits
      (task.buffer.cells.map .ok) = (.ok summary, disk) → FlushStopped s task disk

/-- The disks on which the process may have stopped while it compacted: the temporary file holds
anything at all, or the merge has been published and some of the tables it was made of, in any
order, have been removed. -/
inductive CompactionStopped (s : Store) : Disk → Prop
  | unfinished {disk : Disk} :
    s.disk.SameOutside [TableName.temporary s.memory.nextGeneration] disk →
    CompactionStopped s disk
  | published {summary : Summary} {disk : Disk} {names : List String} :
    s.publishMerge = (.ok summary, disk) →
    (∀ name ∈ names, name ∈ s.tables.values.map Table.fileName) →
    CompactionStopped s (disk.removeFiles names)

/-- To create the temporary file and to write any part of the table into it changes that file
alone. -/
theorem sameOutside_written (disk : Disk) (name : String) (bytes : Array UInt8) :
    disk.SameOutside [name] (disk.create name).2 ∧
      disk.SameOutside [name] ((disk.create name).2.write name bytes).2 :=
  ⟨disk.create_sameOutside name,
    (disk.create_sameOutside name).trans ((disk.create name).2.write_sameOutside name bytes)⟩

/-- Wherever the operations stop that publish the table of a task, such a disk is left behind. -/
theorem flushStopped_performAll {d : Draft}
    (hd : (Draft.empty task.generation s.settings.layout s.settings.filterBits).addAll
      (task.buffer.cells.map .ok) = .ok d) (n : Nat) :
    FlushStopped s task (s.disk.performAll (d.operations.take n)).2 := by
  have hform := (Draft.addAll_empty_eq_ok hd).1
  rcases d.performAll_take_operations s.disk n with hsame | ⟨disk, hstop, hall⟩
  · exact .unfinished (Draft.temporaryName_of_sameForm hform ▸ hsame)
  · rw [hstop]
    exact .published (Draft.publish_of_operations hd hform.generation hall)

/-- So it is with those that publish the merge of a compaction. -/
theorem compactionStopped_performAll {d : Draft}
    (hd : Draft.fillFrom s.tables.values
      (Draft.empty s.memory.nextGeneration s.settings.layout s.settings.filterBits) = .ok d)
    (n : Nat) : CompactionStopped s (s.disk.performAll (d.operations.take n)).2 := by
  have hform := Draft.sameForm_of_fillFrom hd
  rcases d.performAll_take_operations s.disk n with hsame | ⟨disk, hstop, hall⟩
  · exact .unfinished (Draft.temporaryName_of_sameForm hform ▸ hsame)
  · have hnone : CompactionStopped s (disk.removeFiles []) :=
      .published (Draft.publish_of_operations hd hform.generation hall) (by simp)
    rw [hstop]
    exact hnone

/-- Flushing a task to its end, with or without success, leaves such a disk behind. -/
theorem flushStopped_flushTable (hf : s.FitsFilter) (task : FlushTask) :
    FlushStopped s task (s.flushTable task).2.disk := by
  unfold flushTable
  split
  · exact .unfinished (.refl _ _)
  · rcases build_gains s.disk task.generation hf task.buffer.cells with
      ⟨fault, disk, hb, hsame⟩ | ⟨summary, t, disk, hb, hgains, -⟩
    · rw [hb]
      exact .unfinished hsame
    · have hstopped := FlushStopped.published hb
      rw [hb]
      dsimp only
      rw [hgains.openTable]
      exact hstopped

/-- So does compacting. -/
theorem compactionStopped_compact (hf : s.FitsFilter) : CompactionStopped s s.compact.2.disk := by
  by_cases hr : s.HasRoomFor 1
  swap
  · rw [compact_of_last hr]
    exact .unfinished (.refl _ _)
  rcases compact_cases hf hr with ⟨-, ho⟩ | ⟨_, disk, ho, hsame⟩ | ⟨_, _, _, t, disk, _, ho, hp, -⟩
  · rw [ho]
    exact .unfinished (.refl _ _)
  · rw [ho]
    exact .unfinished hsame
  · rw [ho, replaceTables_eq]
    exact .published hp fun _ hname => hname

/-! ### What is opened then -/

/-- A store that has just been opened on a disk of sound tables shows their merged view. -/
theorem Opened.shows (h : Opened settings disk r) (hs : disk.HasSoundTables) :
    r.Shows (mergedView r.contents) := by
  have hsound := h.isSound hs
  have hview : ∀ key, Version.newest (r.versionsOnDisk key) = mergedView r.contents key := by
    intro key
    rw [r.versionsOnDisk_eq, mergedView]
  refine hsound.shows (fun key => ?_) fun key => ?_
  · rw [h.versions_eq, List.nil_append, hview]
  · rw [h.versions_eq, List.append_nil, hview]

theorem contents_insert (tables : Generations Table) (generation : UInt64) (t : Table) :
    (tables.insert generation t).map Table.cells =
      (tables.map Table.cells).insert generation t.cells := by
  refine Generations.ext_find? fun other => ?_
  simp only [Generations.find?_map, Generations.find?_insert]
  split <;> rfl

/-- Nothing that a temporary file holds is taken notice of. -/
theorem IsCoherent.reopened_litter (hc : s.IsCoherent) (hm : s.Mirrors) {generation : UInt64}
    (hd : s.disk.SameOutside [TableName.temporary generation] disk)
    (h : Opened settings disk r) : r.tables = s.tables :=
  Opened.tables_eq (s := { s with disk }) h (hc.litter hd) ((Move.litter hd).mirrors hc hm)

/-- A table that has been flushed is registered beside those that were. -/
theorem IsCoherent.reopened_flushed (hc : s.IsCoherent) (hm : s.Mirrors)
    (hb : s.backlog = task :: rest) {t : Table}
    (hd : s.disk.Gains task.generation s.settings.layout t disk)
    (ht : t.Holds task.buffer.cells) (h : Opened settings disk r) :
    r.tables = s.tables.insert task.generation t :=
  Opened.tables_eq (s := s.published task rest t disk) h (hc.publish hb hd)
    ((Move.publish hb hd ht).mirrors hc hm)

/-! ### Compaction -/

/-- What is registered when a table of the next generation has been published and some of the
others have been removed: the new table, and nothing else that was not registered before. -/
theorem IsCoherent.reopened_compacted (hc : s.IsCoherent) (hm : s.Mirrors) {t : Table}
    {names : List String}
    (hd : s.disk.Gains s.memory.nextGeneration s.settings.layout t disk)
    (hn : ∀ name ∈ names, name ∈ s.tables.values.map Table.fileName)
    (ho : Opened settings (disk.removeFiles names) r) :
    r.tables.find? s.memory.nextGeneration = some t ∧
    ∀ {generation other}, r.tables.find? generation = some other →
      generation ≠ s.memory.nextGeneration → s.tables.find? generation = some other := by
  have hiff : ∀ {name other}, (disk.removeFiles names).openTable name = .ok other ↔
      name ∉ names ∧ (name = TableName.file s.memory.nextGeneration s.settings.layout ∧ other = t ∨
        s.disk.openTable name = .ok other) := by
    intro name other
    rw [Disk.openTable_removeFiles_iff, hd.openTable_iff hc.fresh_of_next]
  constructor
  · have hnew : (disk.removeFiles names).openTable
        (TableName.file s.memory.nextGeneration s.settings.layout) = .ok t :=
      hiff.mpr ⟨fun hin => hc.file_next_not_mem _ (hn _ hin), Or.inl ⟨rfl, rfl⟩⟩
    obtain ⟨other, hother⟩ := ho.opened hnew
    obtain ⟨hg, name, hname⟩ := ho.registered hother
    rcases (hiff.mp hname).2 with ⟨-, rfl⟩ | hold
    · exact hd.generation_eq ▸ hother
    · exact absurd (hg.trans hd.generation_eq) (hc.fresh_of_next hold)
  · intro generation other hother hne
    obtain ⟨rfl, name, hname⟩ := ho.registered hother
    rcases (hiff.mp hname).2 with ⟨-, rfl⟩ | hold
    · exact absurd hd.generation_eq hne
    · exact hm hold

/-- The versions shown of a key when the merge is registered beside some of the tables it was made
of: some of those shown before, and behind them the newest of all of them, because the new
generation is the greatest. -/
theorem IsCoherent.versionsOnDisk_beside (hc : s.IsCoherent)
    (hs : ∀ t ∈ s.tables.values, t.IsSound) {t : Table} {sources : List (List Item)}
    {merged : List Cell} (hscan : s.tables.values.mapM (·.scan []) = .ok sources)
    (hmerge : mergeLists sources = merged.map .ok) (ht : t.Holds merged)
    (hnew : r.tables.find? s.memory.nextGeneration = some t)
    (hold : ∀ {generation other}, r.tables.find? generation = some other →
      generation ≠ s.memory.nextGeneration → s.tables.find? generation = some other)
    (key : Bytes) :
    ∃ older, (∀ v ∈ older, v ∈ s.versionsOnDisk key) ∧ r.versionsOnDisk key =
      older ++ (Version.newest? (s.versionsOnDisk key)).toList := by
  let left := r.tables.erase s.memory.nextGeneration
  have hleft : ∀ {generation other}, left.find? generation = some other →
      s.tables.find? generation = some other := by
    intro generation other hfound
    rw [Generations.find?_erase] at hfound
    split at hfound
    · simp at hfound
    · rename_i hne
      exact hold hfound (Ne.symm hne)
  have hall : left.insert s.memory.nextGeneration t = r.tables := by
    refine Generations.ext_find? fun generation => ?_
    rw [Generations.find?_insert, Generations.find?_erase]
    split
    · rename_i he
      rw [← he, hnew]
    · rfl
  have hentries : r.tables.entries = left.entries ++ [(s.memory.nextGeneration, t)] := by
    rw [← hall]
    refine left.entries_insert_of_greatest t fun e he => ?_
    exact (hc.spent_of_find? (hleft (Generations.mem_entries_iff.mp he))).lt_next
  refine ⟨left.values.filterMap fun t => lookup key t.cells, fun v hv => ?_, ?_⟩
  · obtain ⟨other, hmem, hl⟩ := List.mem_filterMap.mp hv
    obtain ⟨generation, hfound⟩ := Generations.mem_values_iff.mp hmem
    exact mem_versionsOnDisk_iff.mpr ⟨generation, other, hleft hfound, hl⟩
  · have hlook : lookup key t.cells = Version.newest? (s.versionsOnDisk key) := by
      rw [ht.cells_eq]
      exact lookup_merged hs hscan hmerge key
    rw [versionsOnDisk, Generations.values, hentries, List.map_append, List.filterMap_append,
      Generations.values, ← hlook]
    congr 1

/-- So the newest version of every key is what it was. -/
theorem IsCoherent.newest_beside (hc : s.IsCoherent) (hs : ∀ t ∈ s.tables.values, t.IsSound)
    {t : Table} {sources : List (List Item)} {merged : List Cell}
    (hscan : s.tables.values.mapM (·.scan []) = .ok sources)
    (hmerge : mergeLists sources = merged.map .ok) (ht : t.Holds merged)
    (hnew : r.tables.find? s.memory.nextGeneration = some t)
    (hold : ∀ {generation other}, r.tables.find? generation = some other →
      generation ≠ s.memory.nextGeneration → s.tables.find? generation = some other)
    (key : Bytes) :
    Version.newest (r.versionsOnDisk key) = Version.newest (s.versionsOnDisk key) := by
  obtain ⟨older, hsub, hshown⟩ := hc.versionsOnDisk_beside hs hscan hmerge ht hnew hold key
  rw [hshown, Version.newest_append_newest?, Version.newest_append_of_subset hsub]

theorem IsCoherent.mergedView_compacted (hc : s.IsCoherent) (hm : s.Mirrors)
    (hs : s.disk.HasSoundTables) {t : Table} {sources : List (List Item)} {merged : List Cell}
    {names : List String} (hscan : s.tables.values.mapM (·.scan []) = .ok sources)
    (hmerge : mergeLists sources = merged.map .ok)
    (hd : s.disk.Gains s.memory.nextGeneration s.settings.layout t disk) (ht : t.Holds merged)
    (hn : ∀ name ∈ names, name ∈ s.tables.values.map Table.fileName)
    (ho : Opened settings (disk.removeFiles names) r) :
    mergedView r.contents = mergedView s.contents := by
  obtain ⟨hnew, hold⟩ := hc.reopened_compacted hm hd hn ho
  funext key
  rw [mergedView, mergedView, ← r.versionsOnDisk_eq, ← s.versionsOnDisk_eq,
    hc.newest_beside (hc.isSound hs).tables hscan hmerge ht hnew hold]

/-! ### Crash consistency -/

/-- A directory that gained a table of the next generation, and lost some others, can be opened
while two more generations are left. -/
theorem IsCoherent.hasRoom_gains (hc : s.IsCoherent) (hr : s.HasRoomFor 2) {t : Table}
    (hd : s.disk.Gains s.memory.nextGeneration s.settings.layout t disk) (names : List String) :
    (disk.removeFiles names).HasRoom := by
  intro name generation layout hs hp
  rw [Disk.pathOf_congr (Disk.removeFiles_sameOutside _ _).path,
    Disk.pathOf_congr hd.sameOutside.path] at hp
  unfold HasRoomFor at hr
  rcases hd.isSome (Disk.isSome_of_removeFiles hs) with rfl | hs
  · rw [Disk.parse?_file, Option.some.injEq, Prod.mk.injEq] at hp
    exact hp.1 ▸ hr
  · have hlt := UInt64.lt_iff_toNat_lt.mp (hc.spent hs hp).lt_next
    omega

/-- What a flush that was stopped leaves behind can be opened. -/
theorem IsCoherent.opens_flushStopped (hc : s.IsCoherent) (hr : s.HasRoomFor 1)
    (hb : s.backlog = task :: rest) (hstop : FlushStopped s task disk) :
    disk.path = s.disk.path ∧ disk.HasRoom := by
  cases hstop with
  | unfinished hsame => exact ⟨hsame.path, ((hc.litter hsame).isUsable hr).room⟩
  | published hbuild =>
    obtain ⟨t, hgains, -⟩ := gains_of_build hbuild hc.fits
    exact ⟨hgains.sameOutside.path, ((hc.publish hb hgains).isUsable hr).room⟩

/-- So can what a compaction leaves behind. -/
theorem IsCoherent.opens_compactionStopped (hc : s.IsCoherent) (hr : s.HasRoomFor 2)
    (hstop : CompactionStopped s disk) : disk.path = s.disk.path ∧ disk.HasRoom := by
  cases hstop with
  | unfinished hsame =>
    exact ⟨hsame.path, ((hc.litter hsame).isUsable (hr.mono (by omega))).room⟩
  | published hpublished _ =>
    obtain ⟨t, _, _, hgains, -, -, -⟩ := gains_of_publishMerge hpublished hc.fits
    exact ⟨(Disk.removeFiles_sameOutside _ _).path.trans hgains.sameOutside.path,
      hc.hasRoom_gains hr hgains _⟩

/-- With an unfinished table on disk, what is opened is what was registered. -/
theorem IsCoherent.shows_unfinished (hc : s.IsCoherent) (hm : s.Mirrors)
    (hs : s.disk.HasSoundTables) {generation : UInt64}
    (hd : s.disk.SameOutside [TableName.temporary generation] disk)
    (ho : Opened settings disk r) : r.tables = s.tables ∧ r.Shows (mergedView r.contents) := by
  have hsound := (Move.litter hd).hasSoundTables hc hs
  exact ⟨hc.reopened_litter hm hd ho, ho.shows hsound⟩

/-- After a flush that was stopped, none or all of the cells of its table are there. -/
theorem IsCoherent.shows_flushStopped (hc : s.IsCoherent) (hm : s.Mirrors)
    (hs : s.disk.HasSoundTables) (hb : s.backlog = task :: rest)
    (hstop : FlushStopped s task disk) (ho : Opened settings disk r) :
    r.Shows (mergedView r.contents) ∧ (r.contents = s.contents ∨
      r.contents = s.contents.insert task.generation task.buffer.cells) := by
  cases hstop with
  | unfinished hsame =>
    obtain ⟨htables, hshows⟩ := hc.shows_unfinished hm hs hsame ho
    exact ⟨hshows, Or.inl (congrArg (Generations.map Table.cells) htables)⟩
  | published hbuild =>
    obtain ⟨t, hgains, ht⟩ := gains_of_build hbuild hc.fits
    have hcontents : r.contents = s.contents.insert task.generation task.buffer.cells := by
      rw [contents, hc.reopened_flushed hm hb hgains ht ho, contents_insert, ht.cells_eq]
      rfl
    have hsound := (Move.publish hb hgains ht).hasSoundTables hc hs
    exact ⟨ho.shows hsound, Or.inr hcontents⟩

/-- After a compaction that was stopped, the merged view is what it was. -/
theorem IsCoherent.shows_compactionStopped (hc : s.IsCoherent) (hm : s.Mirrors)
    (hs : s.disk.HasSoundTables) (hstop : CompactionStopped s disk)
    (ho : Opened settings disk r) :
    r.Shows (mergedView s.contents) ∧
    ∀ {generation t}, r.tables.find? generation = some t →
      s.tables.find? generation = some t ∨ generation = s.memory.nextGeneration ∧
        ∃ sources merged, s.tables.values.mapM (·.scan []) = .ok sources ∧
          mergeLists sources = merged.map .ok ∧ t.Holds merged := by
  cases hstop with
  | unfinished hsame =>
    obtain ⟨htables, hshows⟩ := hc.shows_unfinished hm hs hsame ho
    have hcontents : r.contents = s.contents := congrArg (Generations.map Table.cells) htables
    exact ⟨hcontents ▸ hshows, fun hfound => Or.inl (htables ▸ hfound)⟩
  | published hpublished hnames =>
    obtain ⟨t, sources, merged, hgains, hscan, hmerge, ht⟩ :=
      gains_of_publishMerge hpublished hc.fits
    obtain ⟨hnew, hold⟩ := hc.reopened_compacted hm hgains hnames ho
    refine ⟨?_, fun {generation other} hfound => ?_⟩
    · rw [← hc.mergedView_compacted hm hs hscan hmerge hgains ht hnames ho]
      refine ho.shows fun name other hopen => ?_
      have hthere := (Disk.openTable_removeFiles_iff.mp hopen).2
      rcases (hgains.openTable_iff hc.fresh_of_next).mp hthere with ⟨-, rfl⟩ | hold
      · exact ht.isSound
      · exact hs hold
    · by_cases hg : generation = s.memory.nextGeneration
      · rw [hg, hnew, Option.some.injEq] at hfound
        exact Or.inr ⟨hg, sources, merged, hscan, hmerge, hfound ▸ ht⟩
      · exact Or.inl (hold hfound hg)

/-- Whenever the process stops while it flushes or compacts, and two generations are left, the
directory opens again with any valid settings. Opened as it was before, it shows the merged view of
the tables. After a flush that was stopped it shows that view, with none or with all of the cells of
the flushed table. After a compaction that was stopped it shows that very view, and what is
registered was registered before or is the whole merge. -/
theorem Run.crash_consistent {start : Store} {writes : List Cell} {settings' : Settings}
    (hd : disk.IsUsable) (hf : Draft.FilterFits settings.layout settings.filterBits)
    (hl : load settings disk = .ok start) (hrun : Run start writes s) (hm : s.Mirrors)
    (hs : s.disk.HasSoundTables) (hr : s.HasRoomFor 2) (hvalid : settings'.validate = .ok ()) :
    (∃ r, load settings' s.disk = .ok r ∧ r.contents = s.contents ∧
      r.Shows (mergedView s.contents)) ∧
    (∀ {task rest disk'}, s.backlog = task :: rest → FlushStopped s task disk' →
      ∃ r, load settings' disk' = .ok r ∧ r.Shows (mergedView r.contents) ∧
        (r.contents = s.contents ∨
          r.contents = s.contents.insert task.generation task.buffer.cells)) ∧
    ∀ {disk'}, CompactionStopped s disk' →
      ∃ r, load settings' disk' = .ok r ∧ r.Shows (mergedView s.contents) ∧
        ∀ {generation t}, r.tables.find? generation = some t →
          s.tables.find? generation = some t ∨ generation = s.memory.nextGeneration ∧
            ∃ sources merged, s.tables.values.mapM (·.scan []) = .ok sources ∧
              mergeLists sources = merged.map .ok ∧ t.Holds merged := by
  have hstart := ((opened_of_load hl).coherent hd hf).1
  have hmoves := hrun.moves hstart.fits
  have hc := hmoves.coherent hstart
  have hpath : s.disk.pathFault? = none := pathFault?_of_moves hl hmoves
  have hone : s.HasRoomFor 1 := hr.mono (by omega)
  refine ⟨?_, fun {task rest disk'} hb hstop => ?_, fun {disk'} hstop => ?_⟩
  · obtain ⟨r, hl'⟩ := exists_load hvalid hpath (hc.isUsable hone).room
    obtain ⟨htables, hshows⟩ :=
      hc.shows_unfinished hm hs (.refl [TableName.temporary 0] s.disk) (opened_of_load hl')
    have hsame : r.contents = s.contents := congrArg (Generations.map Table.cells) htables
    exact ⟨r, hl', hsame, hsame ▸ hshows⟩
  · obtain ⟨hsame, hroom⟩ := hc.opens_flushStopped hone hb hstop
    obtain ⟨r, hl'⟩ := exists_load hvalid ((pathFault?_congr hsame).trans hpath) hroom
    exact ⟨r, hl', hc.shows_flushStopped hm hs hb hstop (opened_of_load hl')⟩
  · obtain ⟨hsame, hroom⟩ := hc.opens_compactionStopped hr hstop
    obtain ⟨r, hl'⟩ := exists_load hvalid ((pathFault?_congr hsame).trans hpath) hroom
    exact ⟨r, hl', hc.shows_compactionStopped hm hs hstop (opened_of_load hl')⟩

/-- A flush that was stopped while it wrote its temporary file leaves a directory that opens. -/
theorem reopened_after_torn_flush : ∃ start s task r,
    load { layout := .plain, filterBits := 64, flushThreshold := 0 } (.ofEmpty "data") =
      .ok start ∧
    Run start [⟨[97], .present 1 [98]⟩] s ∧ s.backlog = [task] ∧
    load {} ((s.disk.create (TableName.temporary task.generation)).2.write
      (TableName.temporary task.generation) #[0, 0]).2 = .ok r ∧ r.Shows (mergedView r.contents) ∧
    (r.contents = s.contents ∨
      r.contents = s.contents.insert task.generation task.buffer.cells) := by
  have hvalid : Settings.validate { layout := .plain, filterBits := 64, flushThreshold := 0 } =
    .ok () := rfl
  have hfits : Draft.FilterFits .plain 64 := nofun
  obtain ⟨start, hl⟩ := exists_load_ofEmpty hvalid
  obtain ⟨filled, hput, hroom, hmore, hqueue, hbacklog, hdisk⟩ :
      ∃ filled, start.put [97] [98] 1 = .ok filled ∧ start.HasRoomFor 1 ∧ filled.HasRoomFor 2 ∧
      filled.memory.queue.length = 1 ∧ filled.backlog = [] ∧ filled.disk = .ofEmpty "data" := by
    cases hl
    exact ⟨_, rfl, by decide, by decide, rfl, rfl, rfl⟩
  obtain ⟨task, htask⟩ := List.length_eq_one_iff.mp hqueue
  let s : Store := { filled with
    memory := { filled.memory with queue := [] }, backlog := filled.backlog ++ [task] }
  have hrun : Run start [⟨[97], .present 1 [98]⟩] s :=
    (Run.refl.step hroom (.put hput)).step (hmore.mono (by omega)) (.work (.receive htask))
  have hnone : ∀ name t, s.disk.openTable name ≠ .ok t := by
    intro name t
    rw [show s.disk = .ofEmpty "data" from hdisk]
    exact Disk.openTable_ofEmpty_ne_ok _ _ _
  have hone : s.backlog = [task] := by
    show filled.backlog ++ [task] = [task]
    rw [hbacklog, List.nil_append]
  have hother : Settings.validate {} = .ok () := rfl
  have hcrash := hrun.crash_consistent (Disk.isUsable_ofEmpty "data") hfits hl
    (fun _ _ ho => absurd ho (hnone _ _)) (fun _ _ ho => absurd ho (hnone _ _)) hmore hother
  obtain ⟨r, hr, hshows, hcontents⟩ :=
    hcrash.2.1 hone (.unfinished (sameOutside_written s.disk _ #[0, 0]).2)
  exact ⟨start, s, task, r, hl, hrun, hone, hr, hshows, hcontents⟩

/-- With a filter that is one word too wide, a flush that was stopped when its table had been
published leaves a directory whose reads disagree: what they show is no map. -/
theorem reopened_under_wide_filters : ∃ disk' r,
    load wide (.ofEmpty "data") = .ok fresh ∧ Run fresh [lone] received ∧ received.Mirrors ∧
    received.disk.HasSoundTables ∧ received.HasRoomFor 2 ∧ received.backlog = [loneTask] ∧
    FlushStopped received loneTask disk' ∧ load {} disk' = .ok r ∧
    r.version [97] = .ok .absent ∧ ∀ map, ¬ r.Shows map := by
  obtain ⟨summary, t, disk', hbuild, -, hgains, hblind, hrows⟩ := exists_flushTable_received
  have hnone : ∀ name other, received.disk.openTable name ≠ .ok other :=
    Disk.openTable_ofEmpty_ne_ok "data"
  have hvalid : Settings.validate {} = .ok () := rfl
  obtain ⟨r, hl, hconceals, -⟩ := exists_conceals_of_gains hvalid (by decide)
    (Disk.find?_ofEmpty "data") hgains hblind hrows
  exact ⟨disk', r, load_wide, run_received, fun _ _ ho => absurd ho (hnone _ _),
    fun _ _ ho => absurd ho (hnone _ _), by decide, rfl, .published hbuild, hl,
    hconceals.version [97], hconceals.not_shows⟩

end Store

end TableStore

import TableStore.Proofs.Store.Crashes

/-! What is read while tables move. At every point of a flush and of a compaction all keys have the
versions that they had when it began, and all ranges yield the same pairs. While a table is flushed
its cells are in memory, then in memory and on disk, then on disk; while tables are compacted the
merge stands beside all of its inputs, some, or none. That the cells are there twice for a while
shows nowhere, as long as no other version in memory has the age of one on disk: where two versions
have one age, that in memory and that on disk are the very same. -/

namespace TableStore

namespace Store

variable {s p q : Store} {settings : Settings} {disk : Disk} {task : FlushTask}
  {rest : List FlushTask} {t : Table} {key : Bytes}

/-! ### Stores that answer alike -/

/-- A store answers all reads as another one does. -/
structure ReadsAs (p s : Store) : Prop where
  version : ∀ key, p.version key = s.version key
  get : ∀ key, p.get key = s.get key
  range : ∀ start limit, (p.range start limit).map (·.toList p.memory) =
    (s.range start limit).map (·.toList s.memory)

theorem ReadsAs.trans (h : p.ReadsAs q) (h' : q.ReadsAs s) : p.ReadsAs s :=
  ⟨fun key => (h.version key).trans (h'.version key), fun key => (h.get key).trans (h'.get key),
    fun start limit => (h.range start limit).trans (h'.range start limit)⟩

/-- Reading looks at the memory and at the registered tables alone. -/
theorem readsAs_of_eq (hm : p.memory = s.memory) (ht : p.tables = s.tables) : p.ReadsAs s := by
  have hversion : ∀ key, p.version key = s.version key := fun key => by
    rw [version, version, hm, ht]
  refine ⟨hversion, fun key => by rw [get, get, hversion], fun start limit => ?_⟩
  rw [range, range, hm, ht]

theorem ReadsAs.of_eq (h : q.ReadsAs s) (hm : p.memory = q.memory) (ht : p.tables = q.tables) :
    p.ReadsAs s := (readsAs_of_eq hm ht).trans h

/-- The newest versions of a key agree, with the memory before the disk and behind it. -/
def AgreesAt (p s : Store) (key : Bytes) : Prop :=
  Version.newest (p.memory.versions key ++ p.versionsOnDisk key) =
    Version.newest (s.memory.versions key ++ s.versionsOnDisk key) ∧
  Version.newest (p.versionsOnDisk key ++ p.memory.versions key) =
    Version.newest (s.versionsOnDisk key ++ s.memory.versions key)

/-- Sound stores answer alike when they agree at all keys. -/
theorem IsSound.readsAs (hp : p.IsSound) (hs : s.IsSound) (h : ∀ key, p.AgreesAt s key) :
    p.ReadsAs s := by
  have hversion : ∀ key, p.version key = s.version key := by
    intro key
    rw [hp.version, hs.version, Version.newest_cons, Version.newest_cons, ← Version.newest_append,
      ← Version.newest_append, (h key).1]
  refine ⟨hversion, fun key => by rw [get, get, hversion], fun start limit => ?_⟩
  obtain ⟨cursor, pairs, hrange, hlist, hpairs⟩ := hs.range start limit
  obtain ⟨cursor', pairs', hrange', hlist', hpairs'⟩ := hp.range start limit
  rw [funext fun key => (h key).2] at hpairs'
  rw [hrange, hrange']
  show Except.ok (cursor'.toList p.memory) = Except.ok (cursor.toList s.memory)
  rw [hlist, hlist', hpairs'.unique hpairs]

/-! ### Points of a flush -/

/-- The points of flushing a task: its temporary file is written, its table has been published, some
of the changes by which it is taken in are made, and the flush has ended, with or without
success. -/
inductive FlushPoint (s : Store) (task : FlushTask) : Store → Prop
  | writing {disk : Disk} :
    s.disk.SameOutside [TableName.temporary task.generation] disk →
    FlushPoint s task { s with disk }
  | published {summary : Summary} {disk : Disk} :
    Draft.build s.disk task.generation s.settings.layout s.settings.filterBits
      (task.buffer.cells.map .ok) = (.ok summary, disk) →
    FlushPoint s task { s with disk }
  | takingIn {summary : Summary} {disk : Disk} {t : Table} (n : Nat) :
    Draft.build s.disk task.generation s.settings.layout s.settings.filterBits
      (task.buffer.cells.map .ok) = (.ok summary, disk) →
    disk.openTable (TableName.file task.generation s.settings.layout) = .ok t →
    FlushPoint s task (({ s with disk } : Store).takeInAll ((handover task t).take n))
  | ended : FlushPoint s task (s.flushTable task).2

/-- While a table is taken in, it is registered before its generation is acknowledged. -/
theorem takeInAll_handover (s : Store) (task : FlushTask) (t : Table) (n : Nat) :
    s.takeInAll ((handover task t).take n) = s ∨
    s.takeInAll ((handover task t).take n) = s.register task.generation t ∨
    s.takeInAll ((handover task t).take n) =
      (s.register task.generation t).acknowledge task.generation := by
  match n with
  | 0 => exact Or.inl rfl
  | 1 => exact Or.inr (Or.inl rfl)
  | n + 2 =>
    rw [List.take_of_length_le (show (handover task t).length ≤ n + 2 from Nat.le_add_left 2 n)]
    exact Or.inr (Or.inr rfl)

/-- The disks on which the process may stop while it flushes are those of the points. -/
theorem FlushStopped.point (h : FlushStopped s task disk) : FlushPoint s task { s with disk } := by
  cases h with
  | unfinished hsame => exact .writing hsame
  | published hbuild => exact .published hbuild

/-- They are all of them. -/
theorem FlushPoint.stopped (h : FlushPoint s task p) (hf : s.FitsFilter) :
    FlushStopped s task p.disk := by
  cases h with
  | writing hsame => exact .unfinished hsame
  | published hbuild => exact .published hbuild
  | takingIn n hbuild =>
    rcases takeInAll_handover _ task _ n with hstore | hstore | hstore <;> rw [hstore] <;>
      exact .published hbuild
  | ended => exact flushStopped_flushTable hf task

/-- What the store is at a point of a flush: its disk alone has changed, its task was empty and is
acknowledged, or the task's table is registered, and the task perhaps acknowledged. -/
theorem FlushPoint.store_cases (h : FlushPoint s task p) (hf : s.FitsFilter) :
    (∃ disk, p = { s with disk }) ∨
    (task.buffer.cells = [] ∧ p = s.acknowledge task.generation) ∨
    ∃ t disk, s.disk.Gains task.generation s.settings.layout t disk ∧
      t.Holds task.buffer.cells ∧
      (p = ({ s with disk } : Store).register task.generation t ∨
        p = (({ s with disk } : Store).register task.generation t).acknowledge
          task.generation) := by
  cases h with
  | writing | published => exact Or.inl ⟨_, rfl⟩
  | @takingIn _ _ t n hbuild hopen =>
    obtain ⟨u, hgains, ht⟩ := gains_of_build hbuild hf
    obtain rfl := hgains.eq_of_openTable hopen
    rcases takeInAll_handover _ task t n with hstore | hstore | hstore <;> rw [hstore]
    · exact Or.inl ⟨_, rfl⟩
    · exact Or.inr (Or.inr ⟨t, _, hgains, ht, Or.inl rfl⟩)
    · exact Or.inr (Or.inr ⟨t, _, hgains, ht, Or.inr rfl⟩)
  | ended =>
    rcases flushTable_cases hf task with
      ⟨he, ho⟩ | ⟨_, disk, ho, -⟩ | ⟨t, disk, ho, hgains, ht⟩ <;> rw [ho]
    · exact Or.inr (Or.inl ⟨he, rfl⟩)
    · exact Or.inl ⟨disk, rfl⟩
    · exact Or.inr (Or.inr ⟨t, disk, hgains, ht, Or.inr rfl⟩)

/-- Where a version in memory and one on disk have one age, they are the same; the cells of a task
count as on disk. -/
def HasOwnAges (s : Store) (task : FlushTask) : Prop :=
  ∀ key, ∀ held ∈ s.memory.versions key, ∀ stored,
    stored ∈ s.versionsOnDisk key ∨ lookup key task.buffer.cells = some stored →
    held.stamp? = stored.stamp? → held = stored

/-- The versions in memory are those of the first task and those that stay when it is done. -/
theorem IsCoherent.versions_eq (hc : s.IsCoherent) (hb : s.backlog = task :: rest) (key : Bytes) :
    s.memory.versions key = (lookup key task.buffer.cells).toList ++
      (s.memory.flushed task.generation).versions key := by
  have hentries := hc.entries_eq hb
  have hleft : (s.memory.flushed task.generation).pending.entries =
      (rest ++ s.memory.queue).map fun task => (task.generation, task.buffer) :=
    Generations.entries_erase_head hentries
  have hactive : (s.memory.flushed task.generation).active = s.memory.active := rfl
  rw [Memory.versions, Memory.versions, Memory.tables, Memory.tables, hactive, Generations.values,
    Generations.values, hleft, hentries, List.map_cons, List.cons_append, List.filterMap_cons]
  cases lookup key task.buffer.cells <;> rfl

theorem IsCoherent.mem_versions (hc : s.IsCoherent) (hb : s.backlog = task :: rest) {v : Version}
    (hl : lookup key task.buffer.cells = some v) : v ∈ s.memory.versions key := by
  rw [hc.versions_eq hb, hl]
  exact List.mem_cons_self

theorem IsCoherent.isSound_register (hc : s.IsCoherent) (hs : s.disk.HasSoundTables)
    (ht : t.IsSound) (generation : UInt64) : (s.register generation t).IsSound where
  memory := (hc.isSound hs).memory
  tables := by
    intro other hm
    obtain ⟨g, hfound⟩ := Generations.mem_values_iff.mp hm
    rw [register, Generations.find?_insert] at hfound
    split at hfound
    · exact Option.some.inj hfound ▸ ht
    · exact (hc.isSound hs).tables other (Generations.mem_values_iff.mpr ⟨g, hfound⟩)

/-- A table that is registered while its cells are still pending shows nowhere. -/
theorem IsCoherent.readsAs_register (hc : s.IsCoherent) (hs : s.disk.HasSoundTables)
    (hb : s.backlog = task :: rest) (ha : s.HasOwnAges task) (ht : t.Holds task.buffer.cells) :
    (s.register task.generation t).ReadsAs s := by
  have hmemory : (s.register task.generation t).memory = s.memory := rfl
  refine (hc.isSound_register hs ht.isSound _).readsAs (hc.isSound hs) fun key => ?_
  obtain ⟨front, back, hdisk, hreg⟩ := versionsOnDisk_register t (hc.task_not_registered hb) key
  rw [AgreesAt, hmemory, hreg, hdisk, ht.cells_eq]
  cases hl : lookup key task.buffer.cells with
  | none => exact ⟨rfl, rfl⟩
  | some v =>
    have hm := hc.mem_versions hb hl
    rw [Option.toList_some, List.singleton_append]
    constructor
    · rw [← List.append_assoc, ← List.append_assoc]
      refine Version.newest_insert_of_mem (List.mem_append_left _ hm) fun u hu hage => ?_
      rcases List.mem_append.mp hu with hu | hu
      · exact ha key u hu v (Or.inr hl) hage
      · exact (ha key v hm u (Or.inl (hdisk ▸ List.mem_append_left _ hu)) hage.symm).symm
    · rw [List.append_assoc, List.append_assoc, List.cons_append]
      exact Version.newest_insert_of_mem_back (List.mem_append_right _ hm)

/-- A task whose cells are all registered leaves memory without a trace. -/
theorem IsCoherent.readsAs_published (hc : s.IsCoherent) (hs : s.disk.HasSoundTables)
    (hb : s.backlog = task :: rest) (ha : s.HasOwnAges task) (ht : t.Holds task.buffer.cells)
    (hd : s.disk.Gains task.generation s.settings.layout t disk) :
    (s.published task rest t disk).ReadsAs s := by
  have hpublished : (s.published task rest t disk).IsSound :=
    (hc.publish hb hd).isSound ((Move.publish hb hd ht).hasSoundTables hc hs)
  have hregistered := hc.isSound_register hs ht.isSound task.generation
  refine ReadsAs.trans ?_ (hc.readsAs_register hs hb ha ht)
  have hin : ∀ {key v}, lookup key task.buffer.cells = some v →
      v ∈ (s.register task.generation t).versionsOnDisk key := by
    intro key v hl
    refine mem_versionsOnDisk_iff.mpr ⟨task.generation, t, ?_, ht.cells_eq ▸ hl⟩
    rw [register, Generations.find?_insert, if_pos rfl]
  have hmemory : ∀ key, (s.register task.generation t).memory.versions key =
      (lookup key task.buffer.cells).toList ++
        (s.published task rest t disk).memory.versions key := hc.versions_eq hb
  have hdisk : ∀ key, (s.published task rest t disk).versionsOnDisk key =
      (s.register task.generation t).versionsOnDisk key := fun _ => rfl
  refine hpublished.readsAs hregistered fun key => ?_
  rw [AgreesAt, hmemory, hdisk]
  cases hl : lookup key task.buffer.cells with
  | none => exact ⟨rfl, rfl⟩
  | some v =>
    rw [Option.toList_some, List.singleton_append]
    constructor
    · rw [List.cons_append]
      exact (Version.newest_cons_of_mem (List.mem_append_right _ (hin hl))).symm
    · refine (Version.newest_insert_of_mem (hin hl) fun u hu hage => ?_).symm
      obtain ⟨generation, other, hfound, hlook⟩ := mem_versionsOnDisk_iff.mp hu
      refine (ha key v (hc.mem_versions hb hl) u ?_ hage.symm).symm
      rw [register, Generations.find?_insert] at hfound
      split at hfound
      · rw [← Option.some.inj hfound, ht.cells_eq] at hlook
        exact Or.inr hlook
      · exact Or.inl (mem_versionsOnDisk_iff.mpr ⟨generation, other, hfound, hlook⟩)

/-- A task without cells leaves memory without a trace. -/
theorem IsCoherent.readsAs_acknowledge (hc : s.IsCoherent) (hs : s.disk.HasSoundTables)
    (hb : s.backlog = task :: rest) (he : task.buffer.cells = []) :
    (s.acknowledge task.generation).ReadsAs s := by
  have hmemory : ∀ key, (s.acknowledge task.generation).memory.versions key =
      s.memory.versions key := by
    intro key
    rw [hc.versions_eq hb, he]
    rfl
  have hacknowledged : (s.acknowledge task.generation).IsSound :=
    ⟨((hc.acknowledge hb).isSound hs).memory, (hc.isSound hs).tables⟩
  refine hacknowledged.readsAs (hc.isSound hs) fun key => ?_
  rw [AgreesAt, hmemory]
  exact ⟨rfl, rfl⟩

theorem IsCoherent.readsAs_flushPoint (hc : s.IsCoherent) (hs : s.disk.HasSoundTables)
    (hb : s.backlog = task :: rest) (ha : s.HasOwnAges task) (h : FlushPoint s task p) :
    p.ReadsAs s := by
  rcases h.store_cases hc.fits with ⟨_, rfl⟩ | ⟨he, rfl⟩ | ⟨t, disk, hgains, ht, rfl | rfl⟩
  · exact readsAs_of_eq rfl rfl
  · exact hc.readsAs_acknowledge hs hb he
  · exact (hc.readsAs_register hs hb ha ht).of_eq rfl rfl
  · exact (hc.readsAs_published hs hb ha ht hgains).of_eq rfl rfl

/-! ### Points of a compaction -/

/-- The points of a compaction: the temporary file is written, the merge has been published, some of
the changes are made by which it takes the place of its inputs, and the compaction has ended, with
or without success. -/
inductive CompactionPoint (s : Store) : Store → Prop
  | writing {disk : Disk} :
    s.disk.SameOutside [TableName.temporary s.memory.nextGeneration] disk →
    CompactionPoint s { s with disk, memory := s.memory.spend }
  | published {summary : Summary} {disk : Disk} :
    s.publishMerge = (.ok summary, disk) →
    CompactionPoint s { s with disk, memory := s.memory.spend }
  | replacing {summary : Summary} {disk : Disk} {t : Table} (n : Nat) :
    s.publishMerge = (.ok summary, disk) →
    disk.openTable (TableName.file s.memory.nextGeneration s.settings.layout) = .ok t →
    CompactionPoint s (({ s with disk, memory := s.memory.spend } : Store).takeInAll
      ((replacement s.tables.values t).take n))
  | ended : CompactionPoint s s.compact.2

/-- The disk at a point of a compaction is one on which the process may stop. -/
theorem CompactionPoint.stopped (h : CompactionPoint s p) (hf : s.FitsFilter) :
    CompactionStopped s p.disk := by
  -- Without any file removed, the disk is the one on which the merge has been published.
  have hall : ∀ {summary : Summary} {disk : Disk}, s.publishMerge = (.ok summary, disk) →
      CompactionStopped s (disk.removeFiles []) := fun hp => .published hp (by simp)
  cases h with
  | writing hsame => exact .unfinished hsame
  | published hp => exact hall hp
  | replacing n hp =>
    cases n with
    | zero => exact hall hp
    | succ n =>
      rw [takeInAll_replacement]
      refine .published hp fun name hm => ?_
      obtain ⟨t, ht, rfl⟩ := List.mem_map.mp hm
      exact List.mem_map_of_mem (List.mem_of_mem_take ht)
  | ended => exact compactionStopped_compact hf

/-- What the store is at a point of a compaction: the same, one generation further, or with the
merge of all tables registered and some of these unregistered. -/
theorem CompactionPoint.store_cases (h : CompactionPoint s p) (hf : s.FitsFilter) :
    p = s ∨ (∃ disk, p = { s with disk, memory := s.memory.spend }) ∨
    ∃ t sources merged disk gone, t.generation = s.memory.nextGeneration ∧
      s.tables.values.mapM (·.scan []) = .ok sources ∧ mergeLists sources = merged.map .ok ∧
      t.Holds merged ∧ (∀ other ∈ gone, other ∈ s.tables.values) ∧
      p = { s with
        disk
        memory := s.memory.spend
        tables := eraseAll gone (s.tables.insert t.generation t) } := by
  cases h with
  | writing | published => exact Or.inr (Or.inl ⟨_, rfl⟩)
  | @replacing _ disk t n hpublished hopen =>
    cases n with
    | zero => exact Or.inr (Or.inl ⟨disk, rfl⟩)
    | succ n =>
      obtain ⟨u, sources, merged, hgains, hscan, hmerge, ht⟩ := gains_of_publishMerge hpublished hf
      obtain rfl := hgains.eq_of_openTable hopen
      rw [takeInAll_replacement]
      exact Or.inr (Or.inr ⟨t, sources, merged, _, _, hgains.generation_eq, hscan, hmerge, ht,
        fun other hm => List.mem_of_mem_take hm, rfl⟩)
  | ended =>
    by_cases hr : s.HasRoomFor 1
    swap
    · exact Or.inl (compact_of_last hr)
    rcases compact_cases hf hr with
      ⟨-, ho⟩ | ⟨_, disk, ho, -⟩ |
        ⟨_, sources, merged, t, _, _, ho, -, hscan, hmerge, hgains, ht⟩ <;> rw [ho]
    · exact Or.inl rfl
    · exact Or.inr (Or.inl ⟨disk, rfl⟩)
    · rw [replaceTables_eq]
      exact Or.inr (Or.inr ⟨t, sources, merged, _, _, hgains.generation_eq, hscan, hmerge, ht,
        fun other hm => hm, rfl⟩)

/-- Taking a generation from the memory changes nothing that a cursor still yields. -/
theorem toList_spend (cursor : RangeCursor) (m : Memory) :
    cursor.toList m.spend = cursor.toList m := by
  by_cases he : cursor.ended = true
  · rw [RangeCursor.toList, RangeCursor.toList, if_pos he, if_pos he]
  · have hfeed : RangeSource.feed m.spend = RangeSource.feed m := rfl
    rw [RangeCursor.toList_eq (Bool.eq_false_iff.mpr he),
      RangeCursor.toList_eq (Bool.eq_false_iff.mpr he), hfeed]

/-- The memory from which a generation was taken reads as before. -/
theorem readsAs_spend (s : Store) :
    ({ s with memory := s.memory.spend } : Store).ReadsAs s where
  version := fun _ => rfl
  get := fun _ => rfl
  range := by
    intro start limit
    have hrange : ({ s with memory := s.memory.spend } : Store).range start limit =
      s.range start limit := rfl
    rw [hrange]
    cases s.range start limit with
    | error fault => rfl
    | ok cursor => exact congrArg Except.ok (toList_spend cursor s.memory)

/-- The merge reads the same beside all of the tables it was made of, some, or none. -/
theorem IsCoherent.readsAs_merged (hc : s.IsCoherent) (hs : s.IsSound)
    {sources : List (List Item)} {merged : List Cell}
    (hscan : s.tables.values.mapM (·.scan []) = .ok sources)
    (hmerge : mergeLists sources = merged.map .ok) (ht : t.Holds merged)
    (hg : t.generation = s.memory.nextGeneration) (gone : List Table)
    (hgone : ∀ other ∈ gone, other ∈ s.tables.values) :
    ({ s with
      memory := s.memory.spend
      tables := eraseAll gone (s.tables.insert t.generation t) } : Store).ReadsAs s := by
  let q : Store := { s with
    memory := s.memory.spend
    tables := eraseAll gone (s.tables.insert t.generation t) }
  have hnew : q.tables.find? s.memory.nextGeneration = some t := hc.find?_beside hg hgone
  have hold : ∀ {generation other}, q.tables.find? generation = some other →
      generation ≠ s.memory.nextGeneration → s.tables.find? generation = some other :=
    fun hfound hne => (find?_of_eraseAll_insert hfound).resolve_left fun h => hne (h.1.trans hg)
  have hsound : q.IsSound := by
    refine ⟨⟨hc.ordered.buffers, hc.ordered.active_not_pending⟩, fun other hm => ?_⟩
    obtain ⟨generation, hother⟩ := Generations.mem_values_iff.mp hm
    by_cases hgen : generation = s.memory.nextGeneration
    · rw [hgen, hnew, Option.some.injEq] at hother
      exact hother ▸ ht.isSound
    · exact hs.tables other
        (Generations.mem_values_iff.mpr ⟨generation, hold hother hgen⟩)
  have hmemory : ∀ key, q.memory.versions key = s.memory.versions key := fun _ => rfl
  have hnewest := hc.newest_beside hs.tables hscan hmerge ht hnew hold
  refine hsound.readsAs hs fun key => ⟨?_, ?_⟩
  · rw [Version.newest_append, Version.newest_append, hnewest, hmemory]
  · rw [Version.newest_append, Version.newest_append, hnewest, hmemory]

theorem IsCoherent.readsAs_compactionPoint (hc : s.IsCoherent) (hs : s.disk.HasSoundTables)
    (h : CompactionPoint s p) : p.ReadsAs s := by
  rcases h.store_cases hc.fits with
    rfl | ⟨_, rfl⟩ | ⟨t, _, _, _, gone, hg, hscan, hmerge, ht, hgone, rfl⟩
  · exact readsAs_of_eq rfl rfl
  · exact s.readsAs_spend.of_eq rfl rfl
  · exact (hc.readsAs_merged (hc.isSound hs) hscan hmerge ht hg gone hgone).of_eq rfl rfl

/-! ### Nothing disappears -/

/-- In a store in use, over sound tables, all reads at every point of a flush and of a compaction
are what they were when it began. -/
theorem Run.reads_unchanged {start : Store} {writes : List Cell} (hd : disk.IsUsable)
    (hs : disk.HasSoundTables) (hf : Draft.FilterFits settings.layout settings.filterBits)
    (hl : load settings disk = .ok start) (hrun : Run start writes s) :
    (∀ {task rest p}, s.backlog = task :: rest → s.HasOwnAges task → FlushPoint s task p →
      p.ReadsAs s) ∧
    ∀ {p}, CompactionPoint s p → p.ReadsAs s := by
  have hopened := opened_of_load hl
  have hstart := (hopened.coherent hd hf).1
  have hmoves := hrun.moves hstart.fits
  have hc := hmoves.coherent hstart
  have hsound := hmoves.hasSoundTables hstart (hopened.hasSoundTables hs)
  exact ⟨fun hb ha hp => hc.readsAs_flushPoint hsound hb ha hp,
    fun hp => hc.readsAs_compactionPoint hsound hp⟩

/-- The table of a single write is flushed, and all reads are what they were. -/
theorem reads_unchanged_after_flush : ∃ start s task,
    load { layout := .plain, filterBits := 64, flushThreshold := 0 } (.ofEmpty "data") =
      .ok start ∧
    Run start [⟨[97], .present 1 [98]⟩] s ∧ s.backlog = [task] ∧ (s.flushTable task).1 = none ∧
    (s.flushTable task).2.ReadsAs s := by
  have hvalid : Settings.validate { layout := .plain, filterBits := 64, flushThreshold := 0 } =
    .ok () := rfl
  have hfits : Draft.FilterFits .plain 64 := nofun
  obtain ⟨start, hl⟩ := exists_load_ofEmpty hvalid
  obtain ⟨filled, task, hput, hroom, hmore, hqueue, hbacklog, hmemory, htables, hflush⟩ :
      ∃ filled task, start.put [97] [98] 1 = .ok filled ∧ start.HasRoomFor 1 ∧
      filled.HasRoomFor 1 ∧ filled.memory.queue = [task] ∧ filled.backlog = [] ∧
      filled.memory.tables = [task.buffer, Buffer.empty 64] ∧ filled.tables.values = [] ∧
      (({ filled with
        memory := { filled.memory with queue := [] }
        backlog := filled.backlog ++ [task] } : Store).flushTable task).1.isNone := by
    cases hl
    exact ⟨_, _, rfl, by decide, by decide, rfl, rfl, rfl, rfl, by decide +kernel⟩
  let s : Store := { filled with
    memory := { filled.memory with queue := [] }, backlog := filled.backlog ++ [task] }
  have hrun : Run start [⟨[97], .present 1 [98]⟩] s :=
    (Run.refl.step hroom (.put hput)).step hmore (.work (.receive hqueue))
  have hone : s.backlog = [task] := by
    show filled.backlog ++ [task] = [task]
    rw [hbacklog, List.nil_append]
  have hages : s.HasOwnAges task := by
    intro key held hheld stored hstored _
    have hin : held ∈ [task.buffer, Buffer.empty 64].filterMap fun b => lookup key b.cells :=
      hmemory ▸ hheld
    have hnone : s.versionsOnDisk key = [] := by
      show filled.tables.values.filterMap _ = []
      rw [htables, List.filterMap_nil]
    rw [hnone] at hstored
    have hlook : lookup key task.buffer.cells = some stored := by simpa using hstored
    simpa [hlook, Buffer.empty] using hin
  have hunchanged := (Run.reads_unchanged (Disk.isUsable_ofEmpty "data")
    (fun _ _ ho => absurd ho (Disk.openTable_ofEmpty_ne_ok _ _ _)) hfits hl hrun).1 hone hages
    .ended
  exact ⟨start, s, task, hl, hrun, hone, Option.isNone_iff_eq_none.mp hflush,
    hunchanged⟩

/-- With a filter that is one word too wide, a flush that is done changes what is read. -/
theorem reads_change_under_wide_filters : ∃ p,
    load wide (.ofEmpty "data") = .ok fresh ∧ Run fresh [lone] received ∧
    received.backlog = [loneTask] ∧ received.HasOwnAges loneTask ∧
    FlushPoint received loneTask p ∧ received.flushTable loneTask = (none, p) ∧
    received.version [97] = .ok (.present 1 [98]) ∧ p.version [97] = .ok .absent ∧
    ¬ p.ReadsAs received := by
  obtain ⟨_, t, disk, -, hflush, -, hblind, hrows⟩ := exists_flushTable_received
  have hages : received.HasOwnAges loneTask := by
    intro key held hheld stored hstored _
    have hin : held ∈ [loneTask.buffer, Buffer.empty wideBits].filterMap fun b =>
      lookup key b.cells := hheld
    have hnone : received.versionsOnDisk key = [] := rfl
    rw [hnone] at hstored
    have hlook : lookup key loneTask.buffer.cells = some stored := by simpa using hstored
    simpa [hlook, Buffer.empty] using hin
  have hpoint : FlushPoint received loneTask (received.flushTable loneTask).2 := .ended
  rw [hflush] at hpoint
  have hgone : (({ received with disk } : Store).takeInAll (handover loneTask t)).version [97] =
      .ok .absent := (conceals_flushed hblind hrows).version [97]
  refine ⟨_, load_wide, run_received, rfl, hages, hpoint, hflush, version_received, hgone,
    fun hreads => ?_⟩
  have hsame := hreads.version [97]
  rw [hgone, version_received] at hsame
  simp at hsame

end Store

end TableStore

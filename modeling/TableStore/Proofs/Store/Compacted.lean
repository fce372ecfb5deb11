import TableStore.Proofs.Merge.Continued
import TableStore.Proofs.Store.Damage
import TableStore.Proofs.Store.Listing
import TableStore.Proofs.Store.Visibility
import TableStore.Proofs.Table.Lookup

/-! What a compaction leaves. It publishes the merge of all registered tables only when every one of
them has been read to its end, so no table that it registers holds a version that another one
outdates, wherever a table breaks off. Then the merge is the one registered table: it holds under
each key the version with the greatest stamp, and of the greatest generation among equals, and all
reads are what they were. A table that has been flushed is followed by a compaction when there are
too many, so that there are never too many unless this one fails. -/

namespace TableStore

namespace Store

variable {s s' : Store} {t : Table}

/-! ### Only whole tables are merged -/

/-- The scans of all registered tables ascend in front of their faults. -/
def ScansAscend (s : Store) : Prop :=
  ∀ t ∈ s.tables.values, ∀ items, t.scan [] = .ok items → Ascending (readable items)

/-- A table is the merge of all registered ones, each of which was read to its end; a filter that
fits finds all of its cells. -/
def IsMerged (s : Store) (t : Table) : Prop :=
  ∃ runs cells, s.tables.values.mapM (·.scan []) = .ok (runs.map (List.map .ok)) ∧
    IsMergeOf runs cells ∧ t.cellsFrom 0 = cells.map .ok ∧ (s.FitsFilter → t.Holds cells)

theorem IsLegible.scansAscend (h : s.IsLegible) : s.ScansAscend := by
  intro t ht items hi
  obtain ⟨hscan, hshows⟩ := (h.tables t ht).scan []
  obtain rfl := Except.ok.inj (hscan.symm.trans hi)
  exact hshows.ascending

theorem ScansAscend.readable (ha : s.ScansAscend) {sources : List (List Item)}
    (hscan : s.tables.values.mapM (·.scan []) = .ok sources) :
    ∀ items ∈ sources, Ascending (readable items) := by
  intro items hi
  have hm : Except.ok items ∈ s.tables.values.map (·.scan []) :=
    mapM_eq_ok.mp hscan ▸ List.mem_map_of_mem hi
  obtain ⟨t, ht, hitems⟩ := List.mem_map.mp hm
  exact ha t ht items hitems

/-- The table that the merge opens as. -/
theorem ScansAscend.isMerged (ha : s.ScansAscend) {summary : Summary} {disk : Disk}
    (h : s.publishMerge = (.ok summary, disk))
    (ho : disk.openTable (TableName.file s.memory.nextGeneration s.settings.layout) = .ok t) :
    s.IsMerged t := by
  obtain ⟨d, sources, merged, hp, hform, hscan, hmerge, hholds⟩ := exists_merged h
  obtain ⟨hwhole, hmerged⟩ := isMergeOf_of_mergeLists (ha.readable hscan) hmerge
  rw [← Draft.fileName_of_sameForm hform] at ho
  refine ⟨_, merged, hwhole ▸ hscan, hmerged, hp.cellsFrom hform hholds ho, fun hfits => ?_⟩
  obtain ⟨hopen, ht⟩ := hp.openTable hholds (Draft.plain_iff_of_sameForm hform)
    (Draft.words_lt_of_sameForm hform hfits)
  exact Except.ok.inj (hopen.symm.trans ho) ▸ ht

/-- A compaction registers no table but the merge, and publishes no other. -/
theorem ScansAscend.compact (ha : s.ScansAscend) :
    (∀ {generation t}, s.compact.2.tables.find? generation = some t →
      s.tables.find? generation = some t ∨ s.IsMerged t) ∧
    ∀ {name t}, s.compact.2.disk.openTable name = .ok t →
      s.disk.openTable name = .ok t ∨ s.IsMerged t := by
  by_cases hfew : s.tables.values.length < 2
  · rw [show s.compact = (.ok none, s) from if_pos hfew]
    exact ⟨Or.inl, Or.inl⟩
  by_cases hr : s.HasRoomFor 1
  swap
  · rw [compact_of_last hr]
    exact ⟨Or.inl, Or.inl⟩
  rw [compact_of_publishMerge hfew hr]
  rcases hp : s.publishMerge with ⟨fault | summary, disk⟩
  · have hsame := litter_of_publishMerge hp
    exact ⟨Or.inl, fun hopen => Or.inl ((hsame.openTable_litter _).symm.trans hopen)⟩
  have hpublished : ∀ {name t}, disk.openTable name = .ok t →
      s.disk.openTable name = .ok t ∨ s.IsMerged t := by
    intro name t hopen
    obtain ⟨d, _, _, hd, hform, -⟩ := exists_merged hp
    by_cases hn : name = d.fileName
    · rw [hn, Draft.fileName_of_sameForm hform] at hopen
      exact Or.inr (ha.isMerged hp hopen)
    · exact Or.inl ((Disk.openTable_of_published hd hn).symm.trans hopen)
  dsimp only
  cases ho : disk.openTable (TableName.file s.memory.nextGeneration s.settings.layout) with
  | error fault => exact ⟨Or.inl, hpublished⟩
  | ok t =>
    dsimp only
    rw [replaceTables_eq]
    refine ⟨fun {generation other} hfound => ?_, fun hopen =>
      hpublished (Disk.openTable_removeFiles_iff.mp hopen).2⟩
    rcases find?_of_eraseAll_insert hfound with ⟨-, rfl⟩ | hold
    · exact Or.inr (ha.isMerged hp ho)
    · exact Or.inl hold

/-- Where a table breaks off, a compaction leaves the registry and all tables on disk as they
are. -/
theorem compact_of_fault {sources : List (List Item)} {items : List Item}
    (hscan : s.tables.values.mapM (·.scan []) = .ok sources) (hi : items ∈ sources)
    (hf : firstFault? items ≠ none) :
    s.compact.2.tables = s.tables ∧
      ∀ name, s.compact.2.disk.openTable name = s.disk.openTable name := by
  by_cases hfew : s.tables.values.length < 2
  · rw [show s.compact = (.ok none, s) from if_pos hfew]
    exact ⟨rfl, fun _ => rfl⟩
  by_cases hr : s.HasRoomFor 1
  swap
  · rw [compact_of_last hr]
    exact ⟨rfl, fun _ => rfl⟩
  rw [compact_of_publishMerge hfew hr]
  rcases hp : s.publishMerge with ⟨fault | summary, disk⟩
  · exact ⟨rfl, (litter_of_publishMerge hp).openTable_litter⟩
  · obtain ⟨_, scans, merged, -, -, hscans, hmerge, -⟩ := exists_merged hp
    obtain rfl := Except.ok.inj (hscan.symm.trans hscans)
    exact absurd (firstFault?_of_mergeLists hmerge items hi) hf

/-- Up to its first fault a merge yields the first cells of the merge of the continued sources, each
the latest of its key, whatever feed they are read by. So a compaction, which gives up at a fault,
publishes and registers no table but the merge of whole tables. -/
theorem newest_before_fault {σ : Type} {f : Feed σ} {states : List σ}
    {continued : List (List Cell)} (hc : List.Forall₂ Continues (states.map f.toList) continued)
    (ha : ∀ cells ∈ continued, Ascending cells) (hs : s.ScansAscend) :
    (∃ cells, mergeLists (continued.map (List.map .ok)) = cells.map .ok ∧
      IsMergeOf continued cells ∧
      readable ((Merge.toFeed f).toList (Merge.start f states)) <+: cells ∧
      readable ((Merge.toFeed f).toList (Merge.start f states)) =
        (cells.takeWhile fun cell => ∀ state ∈ states, IsReadPast (f.toList state) cell.key) ∧
      ∀ cell ∈ readable ((Merge.toFeed f).toList (Merge.start f states)),
        IsLatest continued cell) ∧
    (∀ {generation t}, s.compact.2.tables.find? generation = some t →
      s.tables.find? generation = some t ∨ s.IsMerged t) ∧
    (∀ {name t}, s.compact.2.disk.openTable name = .ok t →
      s.disk.openTable name = .ok t ∨ s.IsMerged t) ∧
    ∀ {sources items}, s.tables.values.mapM (·.scan []) = .ok sources → items ∈ sources →
      firstFault? items ≠ none → s.compact.2.tables = s.tables ∧
        ∀ name, s.compact.2.disk.openTable name = s.disk.openTable name := by
  obtain ⟨cells, hcells, hmerge, hread⟩ := readable_mergeLists_continued hc ha
  simp only [List.forall_mem_map] at hread
  rw [← Merge.toList_start] at hread
  have hfront : readable ((Merge.toFeed f).toList (Merge.start f states)) <+: cells :=
    hread ▸ List.takeWhile_prefix _
  obtain ⟨hregistered, hpublished⟩ := hs.compact
  exact ⟨⟨cells, hcells, hmerge, hfront, hread,
    fun cell hm => hmerge.latest cell (hfront.subset hm)⟩, hregistered, hpublished,
    fun hscan hi hf => compact_of_fault hscan hi hf⟩

/-- Two sources, the first of which breaks off. -/
def brokenSources : List (List Item) :=
  [[.ok ⟨[97], .present 1 [49]⟩, .ok ⟨[99], .present 1 [49]⟩, .error (.damage .stampRange)],
    [.ok ⟨[97], .present 2 [50]⟩, .ok ⟨[98], .tombstone 3⟩, .ok ⟨[100], .present 1 [50]⟩]]

/-- The sources, where the first one goes on with a newer version of a cell of the other one. -/
def mendedSources : List (List Cell) :=
  [[⟨[97], .present 1 [49]⟩, ⟨[99], .present 1 [49]⟩, ⟨[100], .present 9 [51]⟩],
    [⟨[97], .present 2 [50]⟩, ⟨[98], .tombstone 3⟩, ⟨[100], .present 1 [50]⟩]]

theorem continues_mended :
    List.Forall₂ Continues (brokenSources.map Feed.ofList.toList) mendedSources := by
  have hlists : brokenSources.map Feed.ofList.toList = brokenSources :=
    List.map_id'' Feed.toList_ofList brokenSources
  rw [hlists]
  exact .cons ⟨by decide, by decide⟩ (.cons ⟨by decide, by decide⟩ .nil)

/-- The cells in front of the fault are the latest of the continued sources, and the damaged table
is not merged. -/
theorem newest_before_fault_mended : ∃ s,
    load { layout := .plain, filterBits := 64 } damaged = .ok s ∧ s.ScansAscend ∧
    List.Forall₂ Continues (brokenSources.map Feed.ofList.toList) mendedSources ∧
    (∀ cells ∈ mendedSources, Ascending cells) ∧
    readable (mergeLists brokenSources) = [⟨[97], .present 2 [50]⟩, ⟨[98], .tombstone 3⟩] ∧
    (∀ cell ∈ readable (mergeLists brokenSources), IsLatest mendedSources cell) ∧
    s.compact.2.tables = s.tables := by
  obtain ⟨s, hl, hlegible, -⟩ := exists_load_damaged
  have hascending : ∀ cells ∈ mendedSources, Ascending cells := by
    unfold Ascending
    decide
  obtain ⟨sources, hscan, items, hi, hf⟩ : ∃ sources,
      s.tables.values.mapM (·.scan []) = .ok sources ∧
        ∃ items ∈ sources, firstFault? items ≠ none := by
    have hany : ∃ sources ∈ (s.tables.values.mapM fun t : Table => t.scan []).toOption,
        ∃ items ∈ sources, firstFault? items ≠ none := by
      cases hl
      decide +kernel
    obtain ⟨sources, hsources, hitems⟩ := hany
    exact ⟨sources, toOption_eq_some.mp hsources, hitems⟩
  obtain ⟨⟨cells, -, -, -, -, hlatest⟩, -, -, hstays⟩ :=
    newest_before_fault continues_mended hascending hlegible.scansAscend
  exact ⟨s, hl, hlegible.scansAscend, continues_mended, hascending, by decide +kernel,
    hlatest, (hstays hscan hi hf).1⟩

/-! ### One table is left -/

/-- A cell of a registered table that no cell of its key outdoes: each of them is older, or it is of
the same age and in no table of a later generation. -/
def IsNewestStored (s : Store) (cell : Cell) : Prop :=
  ∃ generation t, s.tables.find? generation = some t ∧ cell ∈ t.cells ∧
    ∀ {other u}, s.tables.find? other = some u → ∀ rival ∈ u.cells, rival.key = cell.key →
      rival.version.Older cell.version ∨
        rival.version.stamp? = cell.version.stamp? ∧ other ≤ generation

/-- Later among the registered tables is of a later generation. -/
theorem isLatest_iff_isNewestStored {cell : Cell} :
    IsLatest (s.tables.values.map Table.cells) cell ↔ s.IsNewestStored cell := by
  have hsource : ∀ (i : Nat) (source : List Cell), (s.tables.values.map Table.cells)[i]? =
      some source ↔ ∃ e, s.tables.entries[i]? = some e ∧ e.2.cells = source := by
    intro i source
    rw [Generations.values, List.map_map, List.getElem?_map, Option.map_eq_some_iff]
    rfl
  constructor
  · rintro ⟨i, source, hi, hc, hbound⟩
    obtain ⟨e, he, rfl⟩ := (hsource i source).mp hi
    refine ⟨e.1, e.2, Generations.mem_entries_iff.mp (List.mem_of_getElem? he), hc,
      fun {other u} hu rival hr hk => ?_⟩
    obtain ⟨j, hj⟩ := List.mem_iff_getElem?.mp (Generations.mem_entries_iff.mpr hu)
    refine (hbound j u.cells ((hsource j _).mpr ⟨_, hj, rfl⟩) rival hr hk).imp id fun hage => ?_
    exact ⟨hage.1, (Generations.le_iff_of_getElem? he hj).mp hage.2⟩
  · rintro ⟨generation, t, ht, hc, hbound⟩
    obtain ⟨i, hi⟩ := List.mem_iff_getElem?.mp (Generations.mem_entries_iff.mpr ht)
    refine ⟨i, t.cells, (hsource i _).mpr ⟨_, hi, rfl⟩, hc, fun j source hj rival hr hk => ?_⟩
    obtain ⟨e, he, rfl⟩ := (hsource j source).mp hj
    have hfound := Generations.mem_entries_iff.mp (List.mem_of_getElem? he)
    refine (hbound hfound rival hr hk).imp id fun hage => ?_
    exact ⟨hage.1, (Generations.le_iff_of_getElem? hi he).mpr hage.2⟩

/-- The merge has taken the place of all tables: it is registered alone, under the generation that
was next, and holds the newest cell of every key; nothing else has changed and nothing shows. -/
structure LeavesOne (s : Store) (t : Table) (s' : Store) : Prop where
  tables : s'.tables.entries = [(s.memory.nextGeneration, t)]
  generation : t.generation = s.memory.nextGeneration
  fresh : ∀ u ∈ s.tables.values, u.generation < s.memory.nextGeneration
  sound : t.IsSound
  keys : ∀ key, (∃ cell ∈ t.cells, cell.key = key) ↔
    ∃ u ∈ s.tables.values, ∃ cell ∈ u.cells, cell.key = key
  newest : ∀ cell, cell ∈ t.cells ↔ s.IsNewestStored cell
  reads : s'.ReadsAs s
  memory : s'.memory = { s.memory with nextGeneration := s.memory.nextGeneration + 1 }
  backlog : s'.backlog = s.backlog
  settings : s'.settings = s.settings

theorem length_values (s : Store) : s.tables.values.length = s.tables.size := by
  rw [Generations.values, List.length_map, Generations.size]

theorem compact_of_few (h : s.tables.size < 2) : s.compact = (.ok none, s) :=
  if_pos (s.length_values ▸ h)

theorem IsCoherent.map_generation (hc : s.IsCoherent) :
    s.tables.values.map Table.generation = s.tables.keys := by
  rw [Generations.values, Generations.keys, List.map_map]
  refine List.map_congr_left fun e he => ?_
  exact (hc.registered (Generations.mem_entries_iff.mp he)).1

/-- A compaction of two tables or more that succeeds has published their merge and put it in their
place. -/
theorem IsCoherent.of_compact_eq_ok (hc : s.IsCoherent) {outcome : Option Compaction}
    (hmany : 2 ≤ s.tables.size) (h : s.compact = (.ok outcome, s')) :
    ∃ summary t sources merged disk, outcome = some ⟨s.tables.keys, summary⟩ ∧
      s' = s.replaced t disk ∧ t.generation = s.memory.nextGeneration ∧
      s.tables.values.mapM (·.scan []) = .ok sources ∧ mergeLists sources = merged.map .ok ∧
      t.Holds merged := by
  have hlength : ¬ s.tables.values.length < 2 := Nat.not_lt.mpr (s.length_values ▸ hmany)
  rw [compact_of_publishMerge hlength (hasRoomFor_of_compact hlength h)] at h
  rcases publishMerge_gains hc.fits with
    ⟨fault, disk, hp, -⟩ | ⟨summary, t, sources, merged, disk, hp, hgains, hscan, hmerge, ht⟩
  · rw [hp] at h
    simp at h
  · rw [hp] at h
    dsimp only at h
    rw [hgains.openTable, hc.map_generation] at h
    simp only [Prod.mk.injEq, Except.ok.injEq] at h
    obtain ⟨rfl, rfl⟩ := h
    exact ⟨summary, t, sources, merged, disk, rfl, replaceTables_eq _ _ _, hgains.generation_eq,
      hscan, hmerge, ht⟩

theorem IsCoherent.entries_replaced (hc : s.IsCoherent) {disk : Disk}
    (hg : t.generation = s.memory.nextGeneration) :
    (s.replaced t disk).tables.entries = [(s.memory.nextGeneration, t)] := by
  have hone : (s.replaced t disk).tables = Generations.empty.insert t.generation t :=
    Generations.ext_find? fun generation => by
      rw [hc.find?_replaced hg, Generations.find?_insert, Generations.find?_empty]
  rw [hone, ← hg]
  rfl

theorem IsCoherent.leavesOne (hc : s.IsCoherent) (hs : ∀ t ∈ s.tables.values, t.IsSound)
    {outcome : Option Compaction} (hmany : 2 ≤ s.tables.size)
    (h : s.compact = (.ok outcome, s')) :
    ∃ summary t, outcome = some ⟨s.tables.keys, summary⟩ ∧ s.LeavesOne t s' := by
  obtain ⟨summary, t, sources, merged, disk, ho, rfl, hg, hscan, hmerge, ht⟩ :=
    hc.of_compact_eq_ok hmany h
  have hsound : s.IsSound := ⟨⟨hc.ordered.buffers, hc.ordered.active_not_pending⟩, hs⟩
  have hruns : ∀ run ∈ s.tables.values.map Table.cells, Ascending run :=
    List.forall_mem_map.mpr fun u hu => (hs u hu).ascending
  have hmerged : IsMergeOf (s.tables.values.map Table.cells) t.cells := by
    refine isMergeOf_of_lookup hruns ht.isSound.ascending fun key => ?_
    rw [ht.cells_eq, lookup_merged hs hscan hmerge, List.filterMap_map]
    rfl
  refine ⟨summary, t, ho, ?_⟩
  exact {
    tables := hc.entries_replaced hg
    generation := hg
    fresh := fun u hu => by
      obtain ⟨generation, hfound⟩ := Generations.mem_values_iff.mp hu
      rw [(hc.registered hfound).1]
      exact (hc.spent_of_find? hfound).lt_next
    sound := ht.isSound
    keys := fun key => by
      rw [hmerged.keys]
      simp only [List.mem_map, exists_exists_and_eq_and]
    newest := fun cell => (hmerged.mem_iff hruns cell).trans isLatest_iff_isNewestStored
    reads := (hc.readsAs_merged hsound hscan hmerge ht hg _ fun _ hm => hm).of_eq rfl rfl
    memory := rfl
    backlog := rfl
    settings := rfl }

/-- A flush that succeeds leaves a coherent store with the rest of the backlog. -/
theorem IsCoherent.flushed (hc : s.IsCoherent) {task : FlushTask} {rest : List FlushTask}
    (hb : s.backlog = task :: rest) (h : s.flushTable task = (none, s')) :
    ({ s' with backlog := rest } : Store).IsCoherent := by
  rcases flushTable_cases hc.fits task with
    ⟨-, ho⟩ | ⟨fault, disk, ho, -⟩ | ⟨t, disk, ho, hgains, -⟩ <;>
    rw [ho, Prod.mk.injEq] at h
  · obtain ⟨-, rfl⟩ := h
    exact hc.acknowledge hb
  · simp at h
  · obtain ⟨-, rfl⟩ := h
    exact hc.publish hb hgains

/-- No store runs with settings that allow no table. -/
theorem one_le_maxTables {settings : Settings} (h : settings.validate = .ok ()) :
    1 ≤ settings.maxTables := by
  refine Nat.one_le_iff_ne_zero.mpr fun hzero => ?_
  unfold Settings.validate Settings.fault? at h
  by_cases hq : settings.queueCapacity = 0 <;> simp [hq, hzero] at h

/-- A compaction when there are too many tables leaves few enough, unless it fails. -/
theorem IsCoherent.size_compactIfCrowded (hc : s.IsCoherent) (hmost : 1 ≤ s.settings.maxTables)
    (hdone : s.settings.maxTables < s.tables.size → ∃ outcome, s.compact.1 = .ok outcome) :
    s.compactIfCrowded.tables.size ≤ s.settings.maxTables := by
  unfold compactIfCrowded
  by_cases hcrowded : s.settings.maxTables < s.tables.size
  · obtain ⟨outcome, ho⟩ := hdone hcrowded
    obtain ⟨_, t, _, _, disk, -, hs, hg, -⟩ :=
      hc.of_compact_eq_ok (by omega) (Prod.ext ho rfl : s.compact = (.ok outcome, s.compact.2))
    rw [if_pos hcrowded, hs, Generations.size, hc.entries_replaced hg]
    exact hmost
  · rw [if_neg hcrowded]
    exact Nat.not_lt.mp hcrowded

/-- In a store in use, a compaction of two well-formed tables or more that succeeds leaves one. With
fewer tables it does nothing. After a flush, unless the compaction that follows it fails, no more
tables are registered than the settings allow. -/
theorem Run.compact_leavesOne {start : Store} {settings : Settings} {disk : Disk}
    {writes : List Cell} (hd : disk.IsUsable)
    (hf : Draft.FilterFits settings.layout settings.filterBits)
    (hl : load settings disk = .ok start) (hrun : Run start writes s) :
    (∀ {outcome s'}, 2 ≤ s.tables.size → (∀ t ∈ s.tables.values, t.IsSound) →
      s.compact = (.ok outcome, s') →
      ∃ summary t, outcome = some ⟨s.tables.keys, summary⟩ ∧ s.LeavesOne t s') ∧
    (s.tables.size < 2 → s.compact = (.ok none, s)) ∧
    ∀ {task rest s₁}, s.backlog = task :: rest → s.flushTable task = (none, s₁) →
      (settings.maxTables < s₁.tables.size →
        ∃ outcome, ({ s₁ with backlog := rest } : Store).compact.1 = .ok outcome) →
      ({ s₁ with backlog := rest } : Store).compactIfCrowded.tables.size ≤ settings.maxTables := by
  have hopened := opened_of_load hl
  have hstart := (hopened.coherent hd hf).1
  have hmoves := hrun.moves hstart.fits
  have hc := hmoves.coherent hstart
  refine ⟨fun hmany hs h => hc.leavesOne hs hmany h, compact_of_few, ?_⟩
  intro task rest s₁ hb hflush hdone
  have hsettings : ({ s₁ with backlog := rest } : Store).settings = settings := by
    obtain ⟨_, _, rfl, -⟩ := of_flushTable_eq_none hflush
    exact hmoves.settings_eq.trans hopened.settings_eq
  rw [← hsettings] at hdone ⊢
  refine (hc.flushed hb hflush).size_compactIfCrowded ?_ hdone
  rw [hsettings]
  exact one_le_maxTables (validate_of_load hl)

/-- A pair is flushed, then a tombstone of the same stamp; merged, the tombstone stands. -/
theorem tie_leavesOne : ∃ start s summary t,
    load { layout := .plain, filterBits := 64, flushThreshold := 0 } (.ofEmpty "data") =
      .ok start ∧
    Run start [⟨[98], .present 1 [120]⟩, ⟨[98], .tombstone 1⟩] s ∧ 2 ≤ s.tables.size ∧
    (∀ t ∈ s.tables.values, t.IsSound) ∧
    s.compact = (.ok (some ⟨s.tables.keys, summary⟩), s.compact.2) ∧ s.LeavesOne t s.compact.2 ∧
    t.cells = [⟨[98], .tombstone 1⟩] := by
  have hvalid : Settings.validate { layout := .plain, filterBits := 64, flushThreshold := 0 } =
    .ok () := rfl
  have hfits : Draft.FilterFits .plain 64 := nofun
  obtain ⟨start, hl⟩ := exists_load_ofEmpty hvalid
  obtain ⟨a, ha, hra, hsa, b, hb, hrb, hsb, hmany, hdone, hleft⟩ : ∃ a,
      start.put [98] [120] 1 = .ok a ∧ start.HasRoomFor 1 ∧ a.HasRoomFor (a.waiting + 1) ∧
      ∃ b, a.settle.delete [98] 1 = .ok b ∧ a.settle.HasRoomFor 1 ∧
        b.HasRoomFor (b.waiting + 1) ∧ 2 ≤ b.settle.tables.size ∧
        b.settle.compact.1.toOption.isSome ∧
        b.settle.compact.2.tables.values.map Table.cells = [[⟨[98], .tombstone 1⟩]] := by
    cases hl
    exact ⟨_, rfl, by decide +kernel, by decide +kernel, exists_eq_ok_of_any (by decide +kernel)⟩
  have hfirst : Run start [⟨[98], .present 1 [120]⟩] a.settle :=
    (Run.refl.step hra (.put ha)).trans (run_settle hsa)
  have hrun : Run start [⟨[98], .present 1 [120]⟩, ⟨[98], .tombstone 1⟩] b.settle :=
    (hfirst.step hrb (.delete hb)).trans (run_settle hsb)
  have hopened := opened_of_load hl
  have hempty : (Disk.ofEmpty "data").HasSoundTables :=
    fun _ _ ho => absurd ho (Disk.openTable_ofEmpty_ne_ok _ _ _)
  have hstart := (hopened.coherent (Disk.isUsable_ofEmpty "data") hfits).1
  have hmoves := hrun.moves hstart.fits
  have hs := ((hmoves.coherent hstart).isSound
    (hmoves.hasSoundTables hstart (hopened.hasSoundTables hempty))).tables
  obtain ⟨outcome, ho⟩ := Option.isSome_iff_exists.mp hdone
  have hcompact : b.settle.compact = (.ok outcome, b.settle.compact.2) :=
    Prod.ext (toOption_eq_some.mp ho) rfl
  obtain ⟨summary, t, rfl, hone⟩ := (Run.compact_leavesOne (Disk.isUsable_ofEmpty "data") hfits hl
    hrun).1 hmany hs hcompact
  refine ⟨start, b.settle, summary, t, hl, hrun, hmany, hs, hcompact, hone, ?_⟩
  rw [Generations.values, hone.tables] at hleft
  exact List.singleton_inj.mp hleft

/-- Two tables without filters; the later one holds the lone cell. -/
def plainPair : Disk :=
  (Draft.build (Draft.build (.ofEmpty "data") 1 .plain 64 [.ok ⟨[97], .present 0 [120]⟩]).2 2 .plain
    64 [.ok lone]).2

theorem exists_load_plainPair : ∃ start, load wide plainPair = .ok start ∧
    2 ≤ start.tables.size ∧ start.HasRoomFor 1 ∧
    (∀ t ∈ start.tables.values, t.filter = none ∧ t.IsSound) ∧
    (∃ sources, start.tables.values.mapM (·.scan []) = .ok sources ∧
      mergeLists sources = [lone].map .ok) ∧
    start.disk.Admits start.memory.nextGeneration .filtered ∧
    start.versionsOnDisk [97] = [.present 0 [120], .present 1 [98]] ∧
    start.tables.find? start.memory.nextGeneration = none := by
  obtain ⟨start, hl, hmany, hroom, hrows, hmerged, ⟨hdirectory, hrefusals, hnames⟩, hdisk, hnext⟩ :
      ∃ start, load wide plainPair = .ok start ∧ 2 ≤ start.tables.size ∧ start.HasRoomFor 1 ∧
      (∀ t ∈ start.tables.values, t.filter = none ∧ t.allRows = .ok t.cells ∧
        t.cells.Pairwise fun a b => a.key < b.key) ∧
      ((start.tables.values.mapM fun t : Table => t.scan []).toOption.any fun sources =>
        mergeLists sources = [lone].map .ok) ∧
      (start.disk.directory.isSome ∧ (∀ i < 3, start.disk.refusals[i]? ≠ some true) ∧
        ∀ name ∈ [TableName.temporary start.memory.nextGeneration,
            TableName.file start.memory.nextGeneration .filtered],
          start.disk.reaches name = true ∧ start.disk.find? name ≠ some .folder) ∧
      start.versionsOnDisk [97] = [.present 0 [120], .present 1 [98]] ∧
      start.tables.find? start.memory.nextGeneration = none :=
    exists_eq_ok_of_any (by decide +kernel)
  refine ⟨start, hl, hmany, hroom, fun t ht => ?_, exists_eq_ok_of_any hmerged,
    ⟨hdirectory, hrefusals, hnames⟩, hdisk, hnext⟩
  obtain ⟨hnone, hall, hasc⟩ := hrows t ht
  exact ⟨hnone, Table.holds_of_allRows hall hasc (by simp [hnone])⟩

/-- When two sound tables are compacted into one whose filter is one word too wide, the compaction
succeeds, but the pair that could be read before is not found. -/
theorem compact_hides_under_wide_filters : ∃ start outcome, wide.validate = .ok () ∧
    load wide plainPair = .ok start ∧ 2 ≤ start.tables.size ∧
    (∀ t ∈ start.tables.values, t.IsSound) ∧
    start.compact = (.ok (some outcome), start.compact.2) ∧
    start.version [97] = .ok (.present 1 [98]) ∧ start.compact.2.version [97] = .ok .absent ∧
    ∀ t, ¬ start.LeavesOne t start.compact.2 := by
  obtain ⟨start, hl, hmany, hroom, htables, ⟨sources, hscan, hmerge⟩, hadmits, hdisk, hnext⟩ :=
    exists_load_plainPair
  have ho := opened_of_load hl
  have hsettings : start.settings = wide := ho.settings_eq
  have hmemory : start.memory.IsSound := by
    obtain ⟨greatest, he, -⟩ := ho.memory
    exact he ▸ Memory.isSound_empty _ _ _ _
  have hsound : start.IsSound := ⟨hmemory, fun t ht => (htables t ht).2⟩
  have hread : start.version [97] = .ok (.present 1 [98]) := by
    rw [hsound.version, ho.versions_eq, hdisk]
    rfl
  have hlength : ¬ start.tables.values.length < 2 := Nat.not_lt.mpr (start.length_values ▸ hmany)
  obtain ⟨outcome, t, disk, hcompact, hg, hblind, -⟩ :=
    exists_compact_wide (hsettings ▸ rfl) (hsettings ▸ rfl) hlength hroom
      (fun t ht => (htables t ht).1) hscan hmerge ascending_lone isStorable_lone isLow_lone
      imageSize_lone hadmits
  have hone : (start.replaced t disk).tables = Generations.empty.insert t.generation t :=
    Generations.ext_find? fun generation => by
      rw [find?_replaced_of_fresh (fun hu => (ho.registered hu).1) (hg ▸ hnext),
        Generations.find?_insert, Generations.find?_empty]
  have hgone : start.compact.2.version [97] = .ok .absent := by
    rw [hcompact, version_of_isBlind fun u hu => ?_]
    · exact congrArg Except.ok (ho.get_eq [97])
    · rw [hone] at hu
      exact List.mem_singleton.mp hu ▸ hblind
  refine ⟨start, outcome, validate_wide, hl, hmany, hsound.tables, by rw [hcompact], hread, hgone,
    fun t hleaves => ?_⟩
  have hsame := hleaves.reads.version [97]
  rw [hgone, hread] at hsame
  simp at hsame

end Store

end TableStore

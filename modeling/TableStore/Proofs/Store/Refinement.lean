import Mathlib.Data.List.Induction
import TableStore.Proofs.Store.Blind
import TableStore.Proofs.Store.Closing
import TableStore.Proofs.Store.Flushing

/-! A store stands for a plain map. The map starts with the newest versions in the tables of the
directory and is updated by each write; while the stamps increase, every read of the store, at any
point of its life, is a read of the map. The last write of a key waits in memory or is durable, and
all other versions of the key are older, so that reading finds it wherever it is; the newest version
of a key that was never written is what opening found, and it survives every merge. -/

namespace TableStore

/-! ### The map -/

/-- Writing a cell into a map. -/
def writeMap (map : Bytes → Version) (cell : Cell) (key : Bytes) : Version :=
  if cell.key = key then cell.version else map key

/-- The map after all writes. -/
def finalMap (contents : Generations (List Cell)) (writes : List Cell) : Bytes → Version :=
  writes.foldl writeMap (mergedView contents)

theorem finalMap_eq (contents : Generations (List Cell)) (writes : List Cell) (key : Bytes) :
    finalMap contents writes key = (lastWrite? key writes).getD (mergedView contents key) := by
  induction writes using List.reverseRecOn with
  | nil => rfl
  | append_singleton writes cell ih =>
    have hstep : finalMap contents (writes ++ [cell]) = writeMap (finalMap contents writes) cell :=
      List.foldl_append
    rw [hstep, writeMap, lastWrite?_concat, ih]
    split <;> rfl

/-! ### Increasing stamps -/

/-- Each write is newer than all before it and than all cells that the directory held. -/
structure IsTimely (contents : Generations (List Cell)) (writes : List Cell) : Prop where
  increasing : writes.Pairwise fun a b => a.version.Older b.version
  later : ∀ cells ∈ contents.values, ∀ cell ∈ cells, ∀ w ∈ writes, cell.version.Older w.version

/-- A version of the key that the directory held or that was written. -/
def IsKnown (contents : Generations (List Cell)) (writes : List Cell) (key : Bytes)
    (v : Version) : Prop :=
  ⟨key, v⟩ ∈ writes ∨ ∃ cells ∈ contents.values, ⟨key, v⟩ ∈ cells

variable {contents : Generations (List Cell)} {writes cells : List Cell} {key : Bytes}
  {u v : Version}

theorem IsKnown.append (h : IsKnown contents writes key v) (more : List Cell) :
    IsKnown contents (writes ++ more) key v := h.imp (List.mem_append_left _) id

theorem IsTimely.of_append {more : List Cell} (h : IsTimely contents (writes ++ more)) :
    IsTimely contents writes where
  increasing := (List.pairwise_append.mp h.increasing).1
  later := fun cells hm cell hc w hw => h.later cells hm cell hc w (List.mem_append_left _ hw)

/-- All other versions of a key are older than its last write. -/
theorem IsTimely.eq_or_older (h : IsTimely contents writes)
    (hv : lastWrite? key writes = some v) (hu : IsKnown contents writes key u) :
    u = v ∨ u.Older v := by
  rcases hu with hu | ⟨cells, hm, hu⟩
  · induction writes using List.reverseRecOn with
    | nil => simp at hu
    | append_singleton writes cell ih =>
      rw [lastWrite?_concat] at hv
      rw [List.mem_append, List.mem_singleton] at hu
      by_cases hk : cell.key = key
      · rw [if_pos hk, Option.some.injEq] at hv
        rcases hu with hu | rfl
        · have hpair := (List.pairwise_append.mp h.increasing).2.2
          exact Or.inr (hv ▸ hpair _ hu _ (List.mem_singleton_self _))
        · exact Or.inl hv
      · rw [if_neg hk] at hv
        rcases hu with hu | rfl
        · exact ih h.of_append hv hu
        · exact absurd rfl hk
  · exact Or.inr (h.later cells hm _ hu _ (mem_of_lastWrite? hv))

/-- What is found is the last write when it is among what is read and not older. -/
theorem IsTimely.newest_eq (h : IsTimely contents writes)
    (hv : lastWrite? key writes = some v) {versions : List Version}
    (hknown : ∀ u ∈ versions, IsKnown contents writes key u) (hu : u ∈ versions)
    (hnot : ¬ u.Older v) : Version.newest versions = v := by
  have hall : ∀ u ∈ versions, u = v ∨ u.Older v := fun u hu => h.eq_or_older hv (hknown u hu)
  exact Version.newest_eq_of_newer ((hall u hu).resolve_right hnot ▸ hu) hall

/-! ### What a store knows -/

namespace Store

variable {s s' r : Store}

/-- All that memory holds was written, all that the disk holds was written or there at first, and
of a key that was never written the disk still shows what it showed at first. -/
structure Reflects (contents : Generations (List Cell)) (writes : List Cell) (s : Store) :
    Prop where
  memory : ∀ {key v}, v ∈ s.memory.versions key → ⟨key, v⟩ ∈ writes
  disk : ∀ {key v}, v ∈ s.versionsOnDisk key → IsKnown contents writes key v
  unwritten : ∀ {key}, lastWrite? key writes = none →
    Version.newest (s.versionsOnDisk key) = mergedView contents key

theorem mem_versions_iff {m : Memory} : v ∈ m.versions key ↔
    (∃ generation b, m.pending.find? generation = some b ∧ lookup key b.cells = some v) ∨
      lookup key m.active.cells = some v := by
  have hmem : ∀ b, b ∈ m.tables ↔
      (∃ generation, m.pending.find? generation = some b) ∨ b = m.active := by
    intro b
    rw [Memory.tables, List.mem_append, List.mem_singleton, Generations.mem_values_iff]
  simp only [Memory.versions, List.mem_filterMap, hmem]
  constructor
  · rintro ⟨b, ⟨generation, hb⟩ | rfl, hl⟩
    · exact Or.inl ⟨generation, b, hb, hl⟩
    · exact Or.inr hl
  · rintro (⟨generation, b, hb, hl⟩ | hl)
    · exact ⟨b, Or.inl ⟨generation, hb⟩, hl⟩
    · exact ⟨_, Or.inr rfl, hl⟩

/-- When one table has taken the place of all others, the disk shows the merge. -/
theorem IsCoherent.versionsOnDisk_replaced (h : s.IsCoherent) {t : Table} {disk : Disk}
    (hg : t.generation = s.memory.nextGeneration) (key : Bytes) :
    (s.replaced t disk).versionsOnDisk key = (lookup key t.cells).toList := by
  have hsingle : (s.replaced t disk).tables = Generations.empty.insert t.generation t := by
    refine Generations.ext_find? fun generation => ?_
    rw [h.find?_replaced hg, Generations.find?_insert, Generations.find?_empty]
  rw [versionsOnDisk, hsingle]
  show [t].filterMap (fun t => lookup key t.cells) = _
  rw [List.filterMap_cons]
  cases lookup key t.cells <;> rfl

theorem versionsOnDisk_congr (h : s'.tables = s.tables) (key : Bytes) :
    s'.versionsOnDisk key = s.versionsOnDisk key := by
  rw [versionsOnDisk, h]
  rfl

/-- A table that says nothing about a key changes nothing that the disk shows of it. -/
theorem versionsOnDisk_insert {t : Table} {generation : UInt64}
    (hfresh : s.tables.find? generation = none) (hl : lookup key t.cells = none) :
    (s.register generation t).versionsOnDisk key = s.versionsOnDisk key := by
  obtain ⟨front, back, hs, hr⟩ := versionsOnDisk_register t hfresh key
  rw [hr, hs, hl]
  rfl

theorem Reflects.of_tables_eq (h : s.Reflects contents writes) (ht : s'.tables = s.tables)
    (hm : ∀ {key v}, v ∈ s'.memory.versions key → v ∈ s.memory.versions key) :
    s'.Reflects contents writes where
  memory := fun hv => h.memory (hm hv)
  disk := fun hv => h.disk (versionsOnDisk_congr ht _ ▸ hv)
  unwritten := fun hn => versionsOnDisk_congr ht _ ▸ h.unwritten hn

theorem mem_versions_of_flushed {m : Memory} {generation : UInt64}
    (hv : v ∈ (m.flushed generation).versions key) : v ∈ m.versions key := by
  obtain ⟨b, hb, hl⟩ := List.mem_filterMap.mp hv
  exact List.mem_filterMap.mpr ⟨b, Memory.mem_tables_flushed hb, hl⟩

/-- Behind a write memory holds what was written and what it held before. -/
theorem mem_versions_of_writeOnly {m : Memory} {cell : Cell}
    (hv : v ∈ (m.writeOnly cell).versions key) : v ∈ m.versions key ∨ ⟨key, v⟩ = cell := by
  have hlook : lookup key (m.writeOnly cell).active.cells =
      if cell.key = key then some cell.version else lookup key m.active.cells :=
    Buffer.lookup_write _ _ _
  rcases mem_versions_iff.mp hv with ⟨generation, b, hb, hl⟩ | hl
  · exact Or.inl (mem_versions_iff.mpr (Or.inl ⟨generation, b, hb, hl⟩))
  · rw [hlook] at hl
    by_cases hk : cell.key = key
    · rw [if_pos hk, Option.some.injEq] at hl
      exact Or.inr (by rw [← hk, ← hl])
    · rw [if_neg hk] at hl
      exact Or.inl (mem_versions_iff.mpr (Or.inr hl))

theorem Reflects.write (h : s.Reflects contents writes) (cell : Cell) :
    ({ s with memory := s.memory.writeOnly cell } : Store).Reflects contents
      (writes ++ [cell]) where
  memory := by
    intro key v hv
    rw [List.mem_append, List.mem_singleton]
    exact (mem_versions_of_writeOnly hv).imp h.memory id
  disk := fun hv => (h.disk hv).append _
  unwritten := by
    intro key hn
    rw [lastWrite?_concat] at hn
    split at hn
    · simp at hn
    · exact h.unwritten hn

theorem Reflects.publish (h : s.Reflects contents writes) (hc : s.IsCoherent)
    {task : FlushTask} {rest : List FlushTask} {t : Table} {disk : Disk}
    (hb : s.backlog = task :: rest) (ht : t.Holds task.buffer.cells) :
    (s.published task rest t disk).Reflects contents writes := by
  have hin : ∀ {key v}, lookup key t.cells = some v → ⟨key, v⟩ ∈ writes := by
    intro key v hl
    rw [ht.cells_eq] at hl
    exact h.memory (mem_versions_iff.mpr (Or.inl ⟨_, _, hc.find?_task hb, hl⟩))
  refine ⟨fun hv => h.memory (mem_versions_of_flushed hv), ?_, ?_⟩
  · intro key v hv
    obtain ⟨generation, t', ht', hl⟩ := mem_versionsOnDisk_iff.mp hv
    rw [tables_published, Generations.find?_insert] at ht'
    split at ht'
    · rw [Option.some.injEq] at ht'
      exact Or.inl (hin (ht' ▸ hl))
    · exact h.disk (mem_versionsOnDisk_iff.mpr ⟨generation, t', ht', hl⟩)
  · intro key hn
    have hnone : lookup key t.cells = none := by
      cases hl : lookup key t.cells with
      | none => rfl
      | some v => exact absurd rfl (ne_of_lastWrite? hn _ (hin hl))
    have hsame := versionsOnDisk_insert (s := s) (hc.task_not_registered hb) hnone
    exact (congrArg Version.newest hsame).trans (h.unwritten hn)

theorem Reflects.replace (h : s.Reflects contents writes) (hc : s.IsCoherent)
    (hs : s.disk.HasSoundTables) {sources : List (List Item)} {merged : List Cell} {t : Table}
    {disk : Disk} (hscan : s.tables.values.mapM (·.scan []) = .ok sources)
    (hm : mergeLists sources = merged.map .ok)
    (hg : t.generation = s.memory.nextGeneration) (ht : t.Holds merged) :
    (s.replaced t disk).Reflects contents writes := by
  have hshown : ∀ key, (s.replaced t disk).versionsOnDisk key =
      (Version.newest? (s.versionsOnDisk key)).toList := by
    intro key
    rw [hc.versionsOnDisk_replaced hg, ht.cells_eq,
      lookup_merged (hc.isSound hs).tables hscan hm]
  refine ⟨h.memory, ?_, ?_⟩
  · intro key v hv
    rw [hshown, Option.mem_toList] at hv
    exact h.disk (Version.mem_of_newest?_eq_some hv)
  · intro key hn
    rw [hshown, ← h.unwritten hn]
    exact Version.newest_append_newest? [] _

theorem Move.reflects (hc : s.IsCoherent) (hs : s.disk.HasSoundTables)
    (h : s.Reflects contents writes) (hm : Move s cells s') :
    s'.Reflects contents (writes ++ cells) := by
  cases hm with
  | write cell => exact h.write cell
  | rotate final =>
    rw [List.append_nil]
    exact h.of_tables_eq rfl fun hv => Memory.versions_turn hc.ordered final _ ▸ hv
  | acknowledge =>
    rw [List.append_nil]
    exact h.of_tables_eq rfl mem_versions_of_flushed
  | publish hb _ ht =>
    rw [List.append_nil]
    exact h.publish hc hb ht
  | replace _ hscan hm hd ht =>
    rw [List.append_nil]
    exact h.replace hc hs hscan hm hd.generation_eq ht
  | receive | litter | spend | abandon =>
    rw [List.append_nil]
    exact h.of_tables_eq rfl id

theorem Moves.reflects {before : List Cell} (hc : s.IsCoherent) (hs : s.disk.HasSoundTables)
    (h : s.Reflects contents before) (hm : Moves s writes s') :
    s'.Reflects contents (before ++ writes) := by
  induction hm with
  | refl => rwa [List.append_nil]
  | move hms hm ih =>
    exact List.append_assoc _ _ _ ▸ hm.reflects (hms.coherent hc) (hms.hasSoundTables hc hs) ih

/-- All that ties a store to the map: it is in order, it reads what is on disk and only sound
tables, it has not lost the last write of any key, and it knows nothing else. -/
structure Represents (contents : Generations (List Cell)) (writes : List Cell) (s : Store) :
    Prop where
  coherent : s.IsCoherent
  mirrors : s.Mirrors
  sound : s.disk.HasSoundTables
  holds : s.HoldsWrites writes
  reflects : s.Reflects contents writes

theorem Represents.moves {more : List Cell} (h : s.Represents contents writes)
    (hm : Moves s more s') : s'.Represents contents (writes ++ more) where
  coherent := hm.coherent h.coherent
  mirrors := hm.mirrors h.coherent h.mirrors
  sound := hm.hasSoundTables h.coherent h.sound
  holds := hm.holdsWrites h.coherent h.holds
  reflects := hm.reflects h.coherent h.sound h.reflects

/-! ### Reading is reading the map -/

/-- The last write of a key is in memory or on disk, or a version there is not older. -/
theorem Awaits.exists_version (h : s.Awaits key v) :
    ∃ u, (u ∈ s.memory.versions key ∨ u ∈ s.versionsOnDisk key) ∧ ¬ u.Older v := by
  rcases h with h | ⟨generation, b, -, hb, u, hl, hnot⟩ | ⟨t, h⟩
  · exact ⟨v, Or.inl (mem_versions_iff.mpr (Or.inr h)), v.not_older_self⟩
  · exact ⟨u, Or.inl (mem_versions_iff.mpr (Or.inl ⟨generation, b, hb, hl⟩)), hnot⟩
  · obtain ⟨u, hl, hnot⟩ := h.keeps
    exact ⟨u, Or.inr (mem_versionsOnDisk_iff.mpr ⟨_, t, h.registered, hl⟩), hnot⟩

/-- Whichever of memory and disk is read first, the newest version is that of the map. -/
theorem Represents.newest_eq (h : s.Represents contents writes) (ht : IsTimely contents writes)
    {versions : List Version}
    (hv : versions = s.memory.versions key ++ s.versionsOnDisk key ∨
      versions = s.versionsOnDisk key ++ s.memory.versions key) :
    Version.newest versions = finalMap contents writes key := by
  have hmem : ∀ u, u ∈ versions ↔ u ∈ s.memory.versions key ∨ u ∈ s.versionsOnDisk key := by
    intro u
    rcases hv with rfl | rfl
    · exact List.mem_append
    · exact List.mem_append.trans Or.comm
  rw [finalMap_eq]
  cases hl : lastWrite? key writes with
  | some v =>
    obtain ⟨u, hu, hnot⟩ := (h.holds _ _ hl).exists_version
    refine ht.newest_eq hl (fun u hu => ?_) ((hmem u).mpr hu) hnot
    rcases (hmem u).mp hu with hu | hu
    · exact Or.inl (h.reflects.memory hu)
    · exact h.reflects.disk hu
  | none =>
    have hnil : s.memory.versions key = [] := by
      rw [List.eq_nil_iff_forall_not_mem]
      intro u hu
      exact ne_of_lastWrite? hl _ (h.reflects.memory hu) rfl
    have hall : versions = s.versionsOnDisk key := by
      rcases hv with rfl | rfl <;> simp [hnil]
    rw [hall]
    exact h.reflects.unwritten hl

theorem Represents.shows (h : s.Represents contents writes) (ht : IsTimely contents writes) :
    s.Shows (finalMap contents writes) :=
  (h.coherent.isSound h.sound).shows (fun _ => h.newest_eq ht (Or.inl rfl))
    fun _ => h.newest_eq ht (Or.inr rfl)

end Store

/-! ### Lives of a directory -/

/-- A directory of sound tables with these cells under their generations, no two of one
generation. -/
structure Disk.Stores (disk : Disk) (contents : Generations (List Cell)) : Prop where
  usable : disk.IsUsable
  distinct : disk.IsDistinct
  stored : ∀ {generation cells}, contents.find? generation = some cells →
    ∃ name t, disk.openTable name = .ok t ∧ t.generation = generation ∧ t.Holds cells
  opened : ∀ {name t}, disk.openTable name = .ok t →
    ∃ cells, contents.find? t.generation = some cells

/-- A directory in which every table file is the image of a draft with these cells, whatever its
layout and filter, and no two are of one generation. -/
structure Disk.HasImages (disk : Disk) (contents : Generations (List Cell)) : Prop where
  usable : disk.IsUsable
  image : ∀ {name generation layout}, (disk.find? name).isSome →
    TableName.parse? (disk.pathOf name) = some (generation, layout) →
    ∃ (d : Draft) (cells : List Cell), d.generation = generation ∧ d.layout = layout ∧ d.Fits ∧
      d.Holds cells ∧ contents.find? generation = some cells ∧ disk.reaches name = true ∧
      disk.find? name = some (.file d.image)
  named : ∀ {generation cells}, contents.find? generation = some cells → ∃ name layout,
    (disk.find? name).isSome ∧ TableName.parse? (disk.pathOf name) = some (generation, layout)
  sole : ∀ {name name' generation layout layout'}, (disk.find? name).isSome →
    TableName.parse? (disk.pathOf name) = some (generation, layout) → (disk.find? name').isSome →
    TableName.parse? (disk.pathOf name') = some (generation, layout') → name = name'

/-- Such a directory stores these cells. -/
theorem Disk.HasImages.stores {disk : Disk} {contents : Generations (List Cell)}
    (h : disk.HasImages contents) : disk.Stores contents where
  usable := h.usable
  distinct := by
    intro name name' t t' ho ho' hg
    obtain ⟨-, layout, hp⟩ := of_openTable_eq_ok ho
    obtain ⟨-, layout', hp'⟩ := of_openTable_eq_ok ho'
    have hname := h.sole (isSome_of_openTable ho) hp (isSome_of_openTable ho') (hg ▸ hp')
    rwa [hname, ho', Except.ok.injEq, eq_comm] at ho
  stored := by
    intro generation cells hc
    obtain ⟨name, layout, hs, hp⟩ := h.named hc
    obtain ⟨d, held, hg, hl, hfits, hd, hheld, hreach, hfile⟩ := h.image hs hp
    rw [hc, Option.some.injEq] at hheld
    obtain ⟨ho, ht⟩ := hd.openTable hfits (hg ▸ hl ▸ hp) hreach hfile
    exact ⟨name, _, ho, hg, hheld ▸ ht⟩
  opened := by
    intro name t ho
    obtain ⟨-, layout, hp⟩ := of_openTable_eq_ok ho
    obtain ⟨_, cells, -, -, -, -, hc, -, -⟩ := h.image (isSome_of_openTable ho) hp
    exact ⟨cells, hc⟩

namespace Store

variable {s s' r : Store} {settings : Settings} {disk : Disk}

/-- What can happen to a directory: a store is opened on it, takes one step after another, and is
opened anew, with other settings perhaps, once it is closed and nothing is pending. The filters are
always of a size that a table can tell, and the generations do not run out. -/
inductive Life (disk : Disk) : List Cell → Store → Prop
  | opened {settings : Settings} {s : Store} :
    Draft.FilterFits settings.layout settings.filterBits → load settings disk = .ok s →
    Life disk [] s
  | step {s s' : Store} {writes cells : List Cell} : Life disk writes s → s.HasRoomFor 1 →
    Step s cells s' → Life disk (writes ++ cells) s'
  | reopened {settings : Settings} {s r : Store} {writes : List Cell} : Life disk writes s →
    s.memory.closed = true → s.memory.pending.entries = [] → s.HasRoomFor 1 →
    Draft.FilterFits settings.layout settings.filterBits → load settings s.disk = .ok r →
    Life disk writes r

theorem Opened.represents (h : Opened settings disk s) (hd : disk.Stores contents)
    (hf : Draft.FilterFits settings.layout settings.filterBits) :
    s.Represents contents [] := by
  have hholds : ∀ {name t cells}, disk.openTable name = .ok t →
      contents.find? t.generation = some cells → t.Holds cells := by
    intro name t cells ho hc
    obtain ⟨name', t', ho', hg, ht⟩ := hd.stored hc
    exact hd.distinct ho' ho hg ▸ ht
  have hcells : s.contents = contents := by
    refine Generations.ext_find? fun generation => Option.ext fun cells => ?_
    rw [Store.contents, Generations.find?_map, Option.map_eq_some_iff]
    constructor
    · rintro ⟨t, ht, rfl⟩
      obtain ⟨rfl, name, ho⟩ := h.registered ht
      obtain ⟨cells, hc⟩ := hd.opened ho
      rw [(hholds ho hc).cells_eq, hc]
    · intro hc
      obtain ⟨name, t, ho, rfl, ht⟩ := hd.stored hc
      exact ⟨t, (h.find?_eq_some_iff hd.distinct).mpr ⟨rfl, name, ho⟩, ht.cells_eq⟩
  have hshown : ∀ key, s.versionsOnDisk key = contents.values.filterMap (lookup key) :=
    fun key => hcells ▸ s.versionsOnDisk_eq key
  refine ⟨(h.coherent hd.usable hf).1, h.mirrors hd.distinct, h.hasSoundTables ?_,
    holdsWrites_nil s, ?_, ?_, ?_⟩
  · intro name t ho
    obtain ⟨cells, hc⟩ := hd.opened ho
    exact (hholds ho hc).isSound
  · intro key v hv
    rw [h.versions_eq] at hv
    simp at hv
  · intro key v hv
    rw [hshown] at hv
    obtain ⟨cells, hm, hl⟩ := List.mem_filterMap.mp hv
    exact Or.inr ⟨cells, hm, mem_of_lookup hl⟩
  · intro key _
    rw [hshown, mergedView]

/-- Closing with nothing left pending and opening anew keeps the map. -/
theorem Represents.reopened (h : s.Represents contents writes) (hc : s.memory.closed = true)
    (hp : s.memory.pending.entries = []) (hr : s.HasRoomFor 1)
    (hf : Draft.FilterFits settings.layout settings.filterBits)
    (ho : Opened settings s.disk r) : r.Represents contents writes := by
  have htables := ho.tables_eq h.coherent h.mirrors
  refine ⟨(ho.coherent (h.coherent.isUsable hr) hf).1, ho.mirrors h.mirrors.isDistinct,
    ho.hasSoundTables h.sound, ?_, h.reflects.of_tables_eq htables ?_⟩
  · intro key v hl
    obtain ⟨t, ht⟩ := (h.holds _ _ hl).durable (h.coherent.ordered.closed hc) hp
    exact Or.inr (Or.inr ⟨t, ht.reopened ho⟩)
  · intro key v hv
    rw [ho.versions_eq] at hv
    simp at hv

theorem Life.represents (h : Life disk writes s) (hd : disk.Stores contents) :
    s.Represents contents writes := by
  induction h with
  | opened hf hl => exact (opened_of_load hl).represents hd hf
  | step _ hr hs ih => exact ih.moves (hs.moves ih.coherent.fits hr)
  | reopened _ hc hp hr hf hl ih => exact ih.reopened hc hp hr hf (opened_of_load hl)

/-- Runs are parts of a life, and so are the calls of flush, compact and close. -/
theorem Life.run {more : List Cell} (h : Life disk writes s) (hr : Run s more s') :
    Life disk (writes ++ more) s' := by
  induction hr with
  | refl => rwa [List.append_nil]
  | step _ hroom hs ih => exact List.append_assoc _ _ _ ▸ ih.step hroom hs

theorem Life.flush (h : Life disk writes s) (hr : s.HasRoomFor (s.waiting + 3)) :
    Life disk writes s.flush.2 := by
  simpa using h.run ((flushing_flush hr).run (hr.mono (by omega)))

theorem Life.compact (h : Life disk writes s) (hr : s.HasRoomFor 1) :
    Life disk writes s.compact.2 := by
  simpa using h.step hr (.work (.compact s))

theorem Life.close (h : Life disk writes s) (hd : disk.Stores contents)
    (hr : s.HasRoomFor (s.waiting + 3)) : Life disk writes s.close.2 := by
  have hclosing := (h.represents hd).coherent.closing_close hr
  simpa using h.run (hclosing.run (hr.mono (by omega)))

/-- At any point of the life of a directory, all reads are reads of the map. -/
theorem Life.shows_finalMap (h : Life disk writes s) (hd : disk.Stores contents)
    (ht : IsTimely contents writes) : s.Shows (finalMap contents writes) :=
  (h.represents hd).shows ht

theorem stores_ofEmpty (path : String) : (Disk.ofEmpty path).Stores .empty where
  usable := Disk.isUsable_ofEmpty path
  distinct := fun _ _ _ _ ho => absurd ho (Disk.openTable_ofEmpty_ne_ok _ _ _)
  stored := by simp
  opened := fun ho => absurd ho (Disk.openTable_ofEmpty_ne_ok _ _ _)

/-- A store opened on an empty directory gives back what was put into it. -/
theorem get_after_put : ∃ s, Life (.ofEmpty "data") [⟨[97], .present 1 [98]⟩] s ∧
    s.get [97] = .ok (some [98]) := by
  have hvalid : Settings.validate { layout := .plain, filterBits := 64 } = .ok () := rfl
  have hfits : Draft.FilterFits .plain 64 := nofun
  obtain ⟨start, hl⟩ := exists_load_ofEmpty hvalid
  obtain ⟨s, hroom, hput⟩ : ∃ s, start.HasRoomFor 1 ∧ start.put [97] [98] 1 = .ok s := by
    cases hl
    exact ⟨_, by decide, rfl⟩
  have hlife : Life (.ofEmpty "data") [⟨[97], .present 1 [98]⟩] s :=
    (Life.opened hfits hl).step hroom (.put hput)
  have htimely : IsTimely .empty [⟨[97], .present 1 [98]⟩] :=
    ⟨List.pairwise_singleton _ _, by simp [Generations.values, Generations.empty]⟩
  exact ⟨s, hlife, (hlife.shows_finalMap (stores_ofEmpty "data") htimely).get [97]⟩

/-- Under settings that are valid, but whose filters are one word too wide, what was put is lost to
reading when it has been flushed. -/
theorem put_lost_under_wide_filters : ∃ s, wide.validate = .ok () ∧
    load wide (.ofEmpty "data") = .ok fresh ∧ Run fresh [⟨[97], .present 1 [98]⟩] s ∧
    IsTimely .empty [⟨[97], .present 1 [98]⟩] ∧ s.get [97] = .ok none ∧
    ¬ s.Shows (finalMap .empty [⟨[97], .present 1 [98]⟩]) := by
  obtain ⟨_, t, disk, -, hflush, -, hblind, hrows⟩ := exists_flushTable_received
  have hconceals : (flushed t disk).Conceals := conceals_flushed hblind hrows
  have htimely : IsTimely .empty [⟨[97], .present 1 [98]⟩] :=
    ⟨List.pairwise_singleton _ _, by simp [Generations.values, Generations.empty]⟩
  have hget : (flushed t disk).get [97] = .ok none := by
    rw [get, hconceals.version]
    rfl
  exact ⟨flushed t disk, validate_wide, load_wide, run_flushed hflush, htimely, hget,
    hconceals.not_shows _⟩

end Store

end TableStore

import TableStore.Proofs.Disk.Exact
import TableStore.Proofs.Merge.Kept
import TableStore.Proofs.Store.Crashes

/-! Every table that a store registers carries exactly the filter of its own keys. A flushed table's
filter gets its keys alone. A compaction starts from the filters of its inputs, those of the size of
the new one, and adds all keys of the merge: what the inputs bring are filters of keys of theirs,
and each key of an input is one of the merge, so nothing but the keys of the merge is in the end in
the filter. This is kept over any steps and any openings, the store closed before or stopped in the
middle of writing a table, with formats and filter sizes as they come. -/

namespace TableStore

/-! ### Filters of merges -/

namespace Draft

/-- What a table brings to the filter of a draft: nothing, or its own filter. -/
theorem filter_seedFrom_cases (d : Draft) (t : Table) :
    (d.seedFrom t).filter = d.filter ∨ ∃ f own h, d.filter = some f ∧ t.filter = some own ∧
      f.union own = .ok h ∧ (d.seedFrom t).filter = some h := by
  unfold seedFrom
  cases hown : t.filter with
  | none => exact Or.inl rfl
  | some own =>
    dsimp only
    unfold seed
    cases hf : d.filter with
    | none => exact Or.inl hf
    | some f =>
      cases hu : f.union own with
      | error fault =>
        dsimp only
        rw [hu]
        exact Or.inl hf
      | ok h =>
        dsimp only
        rw [hu]
        exact Or.inr ⟨f, own, h, rfl, rfl, hu, rfl⟩

/-- A filter of keys, all of them from a given list. -/
def KeysAmong (filter : Option Filter) (filterBits : Nat) (keys : List Bytes) : Prop :=
  ∀ f ∈ filter, ∃ own, f = (Filter.empty filterBits).insertAll own ∧ ∀ key ∈ own, key ∈ keys

/-- A table brings no bits but those of its own keys. -/
theorem KeysAmong.seedFrom {d : Draft} {t : Table} {filterBits : Nat} {keys : List Bytes}
    (h : KeysAmong d.filter filterBits keys) (ht : t.IsExact)
    (hkeys : ∀ cell ∈ t.cells, cell.key ∈ keys) :
    KeysAmong (d.seedFrom t).filter filterBits keys := by
  rcases d.filter_seedFrom_cases t with he | ⟨f, other, both, hf, hother, hu, he⟩
  · rw [he]
    exact h
  · obtain ⟨own, rfl, hown⟩ := h f hf
    have hexact := ht.filter other hother
    have hempty : Filter.empty other.bits = Filter.empty filterBits := by
      apply Filter.empty_congr
      rw [← Filter.size_insertAll (Filter.empty other.bits) (t.cells.map Cell.key), ← hexact,
        ← Filter.size_eq_of_union hu, Filter.size_insertAll]
    rw [hempty] at hexact
    rw [hexact, Filter.union_insertAll, Except.ok.injEq] at hu
    intro g hg
    rw [he, Option.mem_def, Option.some.injEq] at hg
    refine ⟨_, hg.symm.trans hu.symm, fun key hk => ?_⟩
    rcases List.mem_append.mp hk with hk | hk
    · exact hown key hk
    · obtain ⟨cell, hc, rfl⟩ := List.mem_map.mp hk
      exact hkeys cell hc

theorem KeysAmong.foldl_seedFrom {tables : List Table} {d : Draft} {filterBits : Nat}
    {keys : List Bytes} (h : KeysAmong d.filter filterBits keys)
    (ht : ∀ t ∈ tables, t.IsExact ∧ ∀ cell ∈ t.cells, cell.key ∈ keys) :
    KeysAmong (tables.foldl Draft.seedFrom d).filter filterBits keys := by
  induction tables generalizing d with
  | nil => exact h
  | cons t tables ih =>
    obtain ⟨hexact, hkeys⟩ := ht t List.mem_cons_self
    exact ih (h.seedFrom hexact hkeys) fun u hu => ht u (List.mem_cons_of_mem t hu)

/-- A draft filled from exact tables has all keys of their merge in its filter and no others. -/
theorem isFilled_of_fillFrom {tables : List Table} {d : Draft} {generation : UInt64}
    {layout : Layout} {filterBits : Nat} (ht : ∀ t ∈ tables, t.IsExact)
    (h : fillFrom tables (empty generation layout filterBits) = .ok d) :
    ∃ cells, d.IsFilled generation layout filterBits cells := by
  obtain ⟨sources, cells, hscan, hmerge, hholds, hform⟩ := fillFrom_eq_ok h
  refine ⟨cells, hholds, hform, ?_⟩
  have hkeys : ∀ t ∈ tables, t.IsExact ∧ ∀ cell ∈ t.cells, cell.key ∈ cells.map Cell.key := by
    intro t hm
    have hsound := (ht t hm).sound
    have hsource : t.cells.map .ok ∈ sources := mem_of_mapM_eq_ok hscan hm hsound.scan_all
    refine ⟨ht t hm, fun cell hc => ?_⟩
    obtain ⟨out, ho, hk, -⟩ := mergeLists_keeps hsource hsound.ascending hmerge cell hc
    exact hk ▸ List.mem_map_of_mem ho
  have hstart : KeysAmong (empty generation layout filterBits).filter filterBits
      (cells.map Cell.key) := by
    intro f hf
    cases layout with
    | plain => simp [empty] at hf
    | filtered => exact ⟨[], (Option.some.inj hf).symm, by simp⟩
  have hseeded := hstart.foldl_seedFrom hkeys
  have hseedForm := (foldl_seedFrom_sameForm tables (empty generation layout filterBits)).1.filter
  have hall : (tables.foldl seedFrom (empty generation layout filterBits)).addAll
      (cells.map .ok) = .ok d := by
    obtain ⟨_, hs, h⟩ := bind_eq_ok.mp h
    rw [hscan, Except.ok.injEq] at hs
    rw [← hmerge, hs]
    exact h
  rw [filter_addAll hall]
  cases layout with
  | plain =>
    have hnone := Option.map_eq_none_iff.mp hseedForm
    rw [hnone]
    rfl
  | filtered =>
    obtain ⟨f, hf, -⟩ := Option.map_eq_some_iff.mp hseedForm
    obtain ⟨own, hown, hin⟩ := hseeded f hf
    rw [hf, Option.map_some, hown, ← Filter.insertAll_append]
    refine congrArg some (Filter.insertAll_congr _ fun key => ?_)
    rw [List.mem_append, or_iff_right_of_imp (hin key)]

end Draft

/-! ### Steps -/

namespace Store

/-- Everything that a store has registered or could find on its disk is exact, and what it writes
can be read back. -/
structure IsExact (s : Store) : Prop where
  fits : s.FitsFilter
  disk : s.disk.IsExact
  tables : ∀ {generation t}, s.tables.find? generation = some t → t.IsExact

variable {s s' : Store} {cells : List Cell}

/-- The disk changes and the registry does not. -/
theorem IsExact.withDisk (h : s.IsExact) {disk : Disk} (hd : disk.IsExact) (memory : Memory)
    (backlog : List FlushTask) : ({ s with disk, memory, backlog } : Store).IsExact :=
  ⟨h.fits, hd, h.tables⟩

/-- A table that opens is registered. -/
theorem IsExact.insert (h : s.IsExact) {disk : Disk} (hd : disk.IsExact) {name : String}
    {t : Table} (ho : disk.openTable name = .ok t) (generation : UInt64) {other : UInt64}
    {u : Table} (hu : (s.tables.insert generation t).find? other = some u) : u.IsExact := by
  rw [Generations.find?_insert] at hu
  split at hu
  · exact Option.some.inj hu ▸ hd.openTable ho
  · exact h.tables hu

theorem IsExact.flushTable (h : s.IsExact) (task : FlushTask) :
    (s.flushTable task).2.IsExact := by
  have hdisk := h.disk.build task.generation h.fits (task.buffer.cells.map .ok)
  unfold Store.flushTable
  split
  · exact h.withDisk h.disk _ _
  · rcases hb : Draft.build s.disk task.generation s.settings.layout s.settings.filterBits
      (task.buffer.cells.map .ok) with ⟨_ | summary, disk⟩
    · rw [hb] at hdisk
      exact h.withDisk hdisk _ _
    · rw [hb] at hdisk
      dsimp only
      split
      · exact h.withDisk hdisk _ _
      · rename_i t ho
        exact ⟨h.fits, hdisk, h.insert hdisk ho task.generation⟩

theorem IsExact.publishMerge (h : s.IsExact) : s.publishMerge.2.IsExact := by
  refine h.disk.publish _ h.fits fun d hd => Draft.isFilled_of_fillFrom (fun t hm => ?_) hd
  obtain ⟨generation, hfound⟩ := Generations.mem_values_iff.mp hm
  exact h.tables hfound

theorem IsExact.compact (h : s.IsExact) : s.compact.2.IsExact := by
  by_cases hfew : s.tables.values.length < 2
  · rw [Store.compact, if_pos hfew]
    exact h
  by_cases hr : ¬ s.HasRoomFor 1
  · rwa [compact_of_last hr]
  · have hdisk := h.publishMerge
    rw [compact_of_publishMerge hfew (not_not.mp hr)]
    rcases hp : s.publishMerge with ⟨_ | summary, disk⟩
    · rw [hp] at hdisk
      exact h.withDisk hdisk _ _
    · rw [hp] at hdisk
      dsimp only
      split
      · exact h.withDisk hdisk _ _
      · rename_i t ho
        rw [replaceTables_eq]
        exact ⟨h.fits, hdisk.of_find? (disk.find?_removeFiles_or _), fun {generation u} hu =>
          h.insert hdisk ho _ (find?_of_eraseAll hu)⟩

theorem IsExact.work (h : s.IsExact) (hw : Work s s') : s'.IsExact := by
  cases hw with
  | receive => exact h.withDisk h.disk _ _
  | @flush flushed task rest _ hf =>
    have hflushed := h.flushTable task
    rw [hf] at hflushed
    exact hflushed.withDisk hflushed.disk _ _
  | @fail _ task _ _ _ hf =>
    have hflushed := h.flushTable task
    rw [hf] at hflushed
    exact hflushed
  | compact => exact h.compact

theorem IsExact.step (h : s.IsExact) (hs : Step s cells s') : s'.IsExact := by
  cases hs with
  | put hp =>
    obtain ⟨memory, -, rfl⟩ := exists_memory_of_write hp
    exact h.withDisk h.disk _ _
  | delete hd =>
    obtain ⟨memory, -, rfl⟩ := exists_memory_of_write hd
    exact h.withDisk h.disk _ _
  | rotate => exact h.withDisk h.disk _ _
  | close => exact h.withDisk h.disk _ _
  | work hw => exact h.work hw
  | abandon => exact h.withDisk h.disk _ _

/-! ### Openings -/

/-- The disks that a store leaves behind: its own, when it is closed or its process ends between two
steps, and those of a process that stops while it writes a table. -/
inductive LeavesBehind (s : Store) : Disk → Prop
  | ended : LeavesBehind s s.disk
  | flushing {task : FlushTask} {disk : Disk} : FlushStopped s task disk → LeavesBehind s disk
  | compacting {disk : Disk} : CompactionStopped s disk → LeavesBehind s disk

theorem IsExact.leavesBehind (h : s.IsExact) {disk : Disk} (hl : s.LeavesBehind disk) :
    disk.IsExact := by
  cases hl with
  | ended => exact h.disk
  | @flushing task _ hstop =>
    cases hstop with
    | unfinished hs => exact h.disk.litter hs
    | published hb =>
      have hdisk := h.disk.build task.generation h.fits (task.buffer.cells.map .ok)
      rw [hb] at hdisk
      exact hdisk
  | compacting hstop =>
    cases hstop with
    | unfinished hs => exact h.disk.litter hs
    | published hp =>
      have hdisk := h.publishMerge
      rw [hp] at hdisk
      exact hdisk.of_find? (Disk.find?_removeFiles_or _ _)

theorem isExact_of_load {settings : Settings} {disk : Disk} (hd : disk.IsExact)
    (hf : Draft.FilterFits settings.layout settings.filterBits)
    (h : load settings disk = .ok s) : s.IsExact := by
  have ho := opened_of_load h
  refine ⟨?_, hd.of_find? fun name => (ho.find? name).imp_right (·.2), fun ht => ?_⟩
  · rw [FitsFilter, ho.settings_eq]
    exact hf
  · obtain ⟨-, name, hname⟩ := ho.registered ht
    exact hd.openTable hname

/-- What stores go through on one directory: one is opened, takes steps, ends in the one way or the
other, and another one is opened, under whatever path and settings. -/
inductive Course (disk : Disk) : Store → Prop
  | opened {base : Disk} {settings : Settings} {s : Store} : base.directory = disk.directory →
    Draft.FilterFits settings.layout settings.filterBits → load settings base = .ok s →
    Course disk s
  | step {s s' : Store} {cells : List Cell} : Course disk s → Step s cells s' → Course disk s'
  | reopened {left base : Disk} {settings : Settings} {s s' : Store} : Course disk s →
    s.LeavesBehind left → base.directory = left.directory →
    Draft.FilterFits settings.layout settings.filterBits → load settings base = .ok s' →
    Course disk s'

theorem Course.isExact {disk : Disk} (hd : disk.IsExact) (h : Course disk s) : s.IsExact := by
  induction h with
  | opened he hf hload => exact isExact_of_load (hd.of_directory_eq he) hf hload
  | step _ hs ih => exact ih.step hs
  | reopened _ hl he hf hload ih =>
    exact isExact_of_load ((ih.leavesBehind hl).of_directory_eq he) hf hload

theorem Course.run {disk : Disk} {writes : List Cell} (h : Course disk s) (hr : Run s writes s') :
    Course disk s' := by
  induction hr with
  | refl => exact h
  | step _ _ hs ih => exact ih.step hs

/-- On a directory that was empty or holds built tables, every table that is registered at any time
carries exactly the filter of its own keys, if its format has one. -/
theorem Course.registered_isExact {disk : Disk} (hd : disk.IsBuilt) (h : Course disk s)
    {generation : UInt64} {t : Table} (ht : s.tables.find? generation = some t) : t.IsExact :=
  (h.isExact hd.isExact).tables ht

/-- Two tables under one key and one more, with filters of 64 and of 128 bits. -/
def twoSizes : Disk :=
  (Draft.build (Draft.build { path := "data", directory := some .empty } 1 .filtered 64
    [.ok ⟨[97], .present 1 [49]⟩]).2 2 .filtered 128
    [.ok ⟨[97], .tombstone 2⟩, .ok ⟨[98], .present 3 [50]⟩]).2

theorem isBuilt_twoSizes : twoSizes.IsBuilt :=
  .build 2 _ (.build 1 _ (.empty "data") fun _ => by decide) fun _ => by decide

/-- Their compaction into a table whose filter has the size of the first one's. -/
theorem isExact_of_twoSizes : ∃ s t f, Course twoSizes s ∧ s.tables.find? 4 = some t ∧
    t.filter = some f ∧ f.bits = 64 ∧ t.IsExact := by
  obtain ⟨s, hload, hfound⟩ : ∃ s, load { filterBits := 64 } twoSizes = .ok s ∧
      (s.compact.2.tables.find? 4).any fun t => t.filter.any fun f => f.bits = 64 :=
    exists_eq_ok_of_any (by decide +kernel)
  have hcourse : Course twoSizes s.compact.2 :=
    .step (.opened rfl (fun _ => by decide) hload) (.work (.compact s))
  obtain ⟨t, ht, hfilter⟩ := (Option.any_eq_true _ _).mp hfound
  obtain ⟨f, hf, hbits⟩ := (Option.any_eq_true _ _).mp hfilter
  exact ⟨_, t, f, hcourse, ht, hf, of_decide_eq_true hbits,
    hcourse.registered_isExact isBuilt_twoSizes ht⟩

/-- With filters that are one word too wide, the table of a flush carries a filter without bits,
which is not that of its key. -/
theorem inexact_under_wide_filters : ∃ s t, wide.validate = .ok () ∧
    load wide (.ofEmpty "data") = .ok fresh ∧ Run fresh [lone] s ∧
    s.tables.find? 1 = some t ∧ t.cells = [lone] ∧ t.filter = some (.empty 64) ∧
    ¬ t.IsExact := by
  obtain ⟨_, t, disk, -, hflush, -, hblind, hrows⟩ := exists_flushTable_received
  have hcells : t.cells = [lone] := by
    rw [Table.cells, hrows]
    rfl
  exact ⟨flushed t disk, t, validate_wide, load_wide, run_flushed hflush, rfl, hcells, hblind,
    fun hexact => hblind.not_isSound hrows hexact.sound⟩

end Store

end TableStore

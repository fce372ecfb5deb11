import TableStore.Proofs.Disk.Gains
import TableStore.Proofs.Memory.Order
import TableStore.Proofs.Store.Steps

/-! The steps of a store taken apart. Each step is one or two moves, and each move says all that it
does: to write into the active table, to rotate it, to pass a task on, to publish a table and take
it in, to leave an unfinished file behind, or to put one table in the place of all. An attempt that
fails leaves at most its temporary file behind; one that succeeds has published a table that holds
the cells it was made of. -/

namespace TableStore

/-! ### Filling a draft -/

namespace Draft

/-- A filter that is united with the draft's changes nothing else, and not its size. -/
theorem seedFrom_sameForm (d : Draft) (t : Table) :
    d.SameForm (d.seedFrom t) ∧ (d.seedFrom t).lastKey = d.lastKey ∧
      (d.seedFrom t).offsets = d.offsets := by
  unfold seedFrom
  split
  · exact ⟨.refl d, rfl, rfl⟩
  · rename_i other _
    unfold seed
    cases hf : d.filter with
    | none => exact ⟨.refl d, rfl, rfl⟩
    | some f =>
      cases hu : f.union other with
      | error fault =>
        dsimp only
        rw [hu]
        exact ⟨.refl d, rfl, rfl⟩
      | ok g =>
        dsimp only
        rw [hu]
        refine ⟨⟨rfl, rfl, ?_⟩, rfl, rfl⟩
        rw [hf]
        exact congrArg some (Filter.size_union hu)

theorem foldl_seedFrom_sameForm (tables : List Table) (d : Draft) :
    d.SameForm (tables.foldl seedFrom d) ∧ (tables.foldl seedFrom d).lastKey = d.lastKey ∧
      (tables.foldl seedFrom d).offsets = d.offsets := by
  induction tables generalizing d with
  | nil => exact ⟨.refl d, rfl, rfl⟩
  | cons t tables ih =>
    obtain ⟨hs, hl, ho⟩ := d.seedFrom_sameForm t
    obtain ⟨hs', hl', ho'⟩ := ih (d.seedFrom t)
    exact ⟨hs.trans hs', hl'.trans hl, ho'.trans ho⟩

/-- A draft filled from tables holds the merge of their cells, which met no fault. -/
theorem fillFrom_eq_ok {tables : List Table} {generation : UInt64} {layout : Layout}
    {filterBits : Nat} {d : Draft}
    (h : fillFrom tables (empty generation layout filterBits) = .ok d) :
    ∃ sources out, tables.mapM (·.scan []) = .ok sources ∧ mergeLists sources = out.map .ok ∧
      d.Holds out ∧ (empty generation layout filterBits).SameForm d := by
  obtain ⟨sources, hs, h⟩ := bind_eq_ok.mp h
  obtain ⟨hform, hlast, hoffsets⟩ :=
    foldl_seedFrom_sameForm tables (empty generation layout filterBits)
  obtain ⟨out, hout, hd, hf⟩ := (holds_nil hlast hoffsets).addAll h
  exact ⟨sources, out, hs, hout, hd, hform.trans hf⟩

theorem sameForm_of_fillFrom {tables : List Table} {generation : UInt64} {layout : Layout}
    {filterBits : Nat} {d : Draft}
    (h : fillFrom tables (empty generation layout filterBits) = .ok d) :
    (empty generation layout filterBits).SameForm d := by
  obtain ⟨_, _, -, -, -, hform⟩ := fillFrom_eq_ok h
  exact hform

end Draft

/-! ### Tables published -/

/-- A published table that opens is gained. -/
theorem Draft.Published.gains {generation : UInt64} {layout : Layout} {filterBits : Nat} {d : Draft}
    {disk disk' : Disk} {t : Table} (h : d.Published disk disk')
    (hform : (empty generation layout filterBits).SameForm d)
    (ho : disk'.openTable d.fileName = .ok t) : disk.Gains generation layout t disk' where
  sameOutside := by
    rw [← temporaryName_of_sameForm hform, ← fileName_of_sameForm hform]
    exact h.sameOutside
  openTable := fileName_of_sameForm hform ▸ ho
  temporary := temporaryName_of_sameForm hform ▸ h.temporary

/-- A published draft is gained as a table with its cells. -/
theorem Draft.Published.exists_gains {generation : UInt64} {layout : Layout} {filterBits : Nat}
    {d : Draft} {disk disk' : Disk} (h : d.Published disk disk')
    (hform : (empty generation layout filterBits).SameForm d)
    (hfits : FilterFits layout filterBits) {cells : List Cell} (hd : d.Holds cells) :
    ∃ t, disk.Gains generation layout t disk' ∧ t.Holds cells := by
  obtain ⟨hopen, ht⟩ :=
    h.openTable hd (plain_iff_of_sameForm hform) (words_lt_of_sameForm hform hfits)
  exact ⟨_, h.gains hform hopen, ht⟩

namespace Store

theorem foldl_removeFile (inputs : List Table) (s : Store) :
    inputs.foldl removeFile s =
      { s with disk := s.disk.removeFiles (inputs.map Table.fileName) } := by
  induction inputs generalizing s with
  | nil => rfl
  | cons t inputs ih =>
    rw [List.foldl_cons, ih, removeFile, List.map_cons, Disk.removeFiles, Disk.removeFiles,
      List.foldl_cons]

/-- While a table takes the place of its inputs: once it is registered, the first of them are
unregistered, and then the first files removed. -/
theorem takeInAll_replacement (s : Store) (inputs : List Table) (output : Table) (n : Nat) :
    s.takeInAll ((replacement inputs output).take (n + 1)) =
      { s with
        disk := s.disk.removeFiles ((inputs.take (n - inputs.length)).map Table.fileName)
        tables := eraseAll (inputs.take n) (s.tables.insert output.generation output) } := by
  have hfolds : s.takeInAll ((replacement inputs output).take (n + 1)) =
      (inputs.take (n - inputs.length)).foldl removeFile
        ((inputs.take n).foldl (fun s t => s.unregister t.generation)
          (s.register output.generation output)) := by
    rw [takeInAll, replacement, List.cons_append, List.take_succ_cons, List.foldl_cons,
      List.take_append, List.length_map, ← List.map_take, ← List.map_take, List.foldl_append,
      List.foldl_map, List.foldl_map]
    rfl
  rw [hfolds, foldl_unregister, foldl_removeFile, register]

theorem replaceTables_eq (s : Store) (inputs : List Table) (output : Table) :
    s.replaceTables inputs output =
      { s with
        disk := s.disk.removeFiles (inputs.map Table.fileName)
        tables := eraseAll inputs (s.tables.insert output.generation output) } := by
  rw [replaceTables_eq_folds, foldl_unregister, foldl_removeFile, register]

/-! ### Moves -/

/-- The store when the table of its first task has been published and taken in. -/
def published (s : Store) (task : FlushTask) (rest : List FlushTask) (t : Table) (disk : Disk) :
    Store :=
  { s with
    disk
    memory := s.memory.flushed task.generation
    tables := s.tables.insert task.generation t
    backlog := rest }

/-- The store when a published table has taken the place of all others. -/
def replaced (s : Store) (t : Table) (disk : Disk) : Store :=
  { s with
    disk := disk.removeFiles (s.tables.values.map Table.fileName)
    memory := s.memory.spend
    tables := eraseAll s.tables.values (s.tables.insert t.generation t) }

section

variable (s : Store) (task : FlushTask) (rest : List FlushTask) (t : Table) (disk : Disk)

@[simp] theorem disk_published : (s.published task rest t disk).disk = disk := rfl

@[simp] theorem tables_published :
    (s.published task rest t disk).tables = s.tables.insert task.generation t := rfl

@[simp] theorem disk_replaced :
    (s.replaced t disk).disk = disk.removeFiles (s.tables.values.map Table.fileName) := rfl

@[simp] theorem tables_replaced : (s.replaced t disk).tables =
    eraseAll s.tables.values (s.tables.insert t.generation t) := rfl

end

/-- A move of a store, and the cells whose writes it acknowledges. -/
inductive Move (s : Store) : List Cell → Store → Prop
  | write (cell : Cell) : s.memory.closed = false → cell.version.isAbsent = false →
    Move s [cell] { s with memory := s.memory.writeOnly cell }
  | rotate (final : Bool) : s.memory.closed = false → s.HasRoomFor 1 →
    Move s [] { s with memory := s.memory.turn final }
  | receive {task : FlushTask} {rest : List FlushTask} : s.memory.queue = task :: rest →
    Move s [] { s with
      memory := { s.memory with queue := rest }
      backlog := s.backlog ++ [task] }
  | acknowledge {task : FlushTask} {rest : List FlushTask} : s.backlog = task :: rest →
    task.buffer.cells = [] →
    Move s [] { s with memory := s.memory.flushed task.generation, backlog := rest }
  | publish {task : FlushTask} {rest : List FlushTask} {t : Table} {disk : Disk} :
    s.backlog = task :: rest → s.disk.Gains task.generation s.settings.layout t disk →
    t.Holds task.buffer.cells →
    Move s [] (s.published task rest t disk)
  | litter {generation : UInt64} {disk : Disk} :
    s.disk.SameOutside [TableName.temporary generation] disk → Move s [] { s with disk }
  | spend : s.HasRoomFor 1 → Move s [] { s with memory := s.memory.spend }
  | replace {sources : List (List Item)} {cells : List Cell} {t : Table} {disk : Disk} :
    s.HasRoomFor 1 → s.tables.values.mapM (·.scan []) = .ok sources →
    mergeLists sources = cells.map .ok →
    s.disk.Gains s.memory.nextGeneration s.settings.layout t disk → t.Holds cells →
    Move s [] (s.replaced t disk)
  | abandon {task : FlushTask} : task ∈ s.backlog → task.final = true →
    Move s [] { s with backlog := [] }

/-- Moves one after another, and all cells acknowledged. -/
inductive Moves (start : Store) : List Cell → Store → Prop
  | refl : Moves start [] start
  | move {s s' : Store} {writes cells : List Cell} :
    Moves start writes s → Move s cells s' → Moves start (writes ++ cells) s'

theorem Moves.single {s s' : Store} {cells : List Cell} (h : Move s cells s') : Moves s cells s' :=
  Moves.move .refl h

theorem Moves.trans {a b c : Store} {writes more : List Cell} (h : Moves a writes b)
    (h' : Moves b more c) : Moves a (writes ++ more) c := by
  induction h' with
  | refl => simpa using h
  | move _ hm ih => exact List.append_assoc _ _ _ ▸ ih.move hm

theorem Move.settings_eq {s s' : Store} {cells : List Cell} (h : Move s cells s') :
    s'.settings = s.settings := by
  cases h <;> rfl

theorem Moves.settings_eq {start s : Store} {writes : List Cell} (h : Moves start writes s) :
    s.settings = start.settings := by
  induction h with
  | refl => rfl
  | move _ hm ih => exact hm.settings_eq.trans ih

theorem Move.path_eq {s s' : Store} {cells : List Cell} (hm : Move s cells s') : s'.disk.path = s.disk.path := by
  cases hm with
  | write | rotate | receive | acknowledge | spend | abandon => rfl
  | litter hd => exact hd.path
  | publish _ hd _ => exact hd.sameOutside.path
  | replace _ _ _ hd _ =>
    exact (Disk.removeFiles_sameOutside _ _).path.trans hd.sameOutside.path

theorem Moves.path_eq {s s' : Store} {writes : List Cell} (hm : Moves s writes s') : s'.disk.path = s.disk.path := by
  induction hm with
  | refl => rfl
  | move _ hm ih => exact hm.path_eq.trans ih

/-! ### Steps are moves -/

/-- The new tables of a store can be read back. -/
def FitsFilter (s : Store) : Prop := Draft.FilterFits s.settings.layout s.settings.filterBits

/-- To write to a store is to write to its memory. -/
theorem exists_memory_of_write {s s' : Store} {cell : Cell} (h : s.write cell = .ok s') :
    ∃ memory, s.memory.write cell = .ok memory ∧ s' = { s with memory } := by
  obtain ⟨memory, hm, h⟩ := bind_eq_ok.mp h
  rw [pure_eq_ok, Except.ok.injEq] at h
  exact ⟨memory, hm, h.symm⟩

theorem moves_write {s s' : Store} {cell : Cell} (hr : s.HasRoomFor 1)
    (hv : cell.version.isAbsent = false) (h : s.write cell = .ok s') : Moves s [cell] s' := by
  obtain ⟨memory, hm, rfl⟩ := exists_memory_of_write h
  obtain ⟨hc, hm⟩ := Memory.write_cases hm
  have hwrite : Moves s [cell] { s with memory := s.memory.writeOnly cell } :=
    Moves.single (.write cell hc hv)
  rcases hm with rfl | ⟨-, rfl⟩
  · exact hwrite
  · exact hwrite.move (.rotate (s := { s with memory := s.memory.writeOnly cell }) false hc hr)

theorem moves_rotate {s : Store} {generation : Option UInt64} {memory : Memory}
    (hr : s.HasRoomFor 1) (h : s.memory.forceRotate = .ok (generation, memory)) :
    Moves s [] { s with memory } := by
  obtain ⟨hc, ⟨-, -, rfl⟩ | ⟨-, -, -, rfl⟩⟩ := Memory.forceRotate_cases h
  · exact .refl
  · exact Moves.single (.rotate false hc hr)

theorem moves_close {s : Store} {memory : Memory} (h : s.memory.close = .ok memory) :
    Moves s [] { s with memory } := by
  obtain ⟨-, rfl⟩ | ⟨hc, hr, rfl⟩ := Memory.close_cases h
  · exact .refl
  · exact Moves.single (.rotate true hc hr)

theorem gains_of_build {disk disk' : Disk} {generation : UInt64} {layout : Layout}
    {filterBits : Nat} {cells : List Cell} {summary : Summary}
    (h : Draft.build disk generation layout filterBits (cells.map .ok) = (.ok summary, disk'))
    (hfits : Draft.FilterFits layout filterBits) :
    ∃ t, disk.Gains generation layout t disk' ∧ t.Holds cells := by
  obtain ⟨d, hd, hp⟩ :=
    Draft.exists_published (fun _ hd => (Draft.addAll_empty_eq_ok hd).1.generation) h
  obtain ⟨hform, hholds⟩ := Draft.addAll_empty_eq_ok hd
  exact hp.exists_gains hform hfits hholds

/-- Building a table of cells leaves at most its temporary file, or publishes these cells. -/
theorem build_gains (disk : Disk) (generation : UInt64) {layout : Layout} {filterBits : Nat}
    (hfits : Draft.FilterFits layout filterBits) (cells : List Cell) :
    (∃ fault disk',
      Draft.build disk generation layout filterBits (cells.map .ok) = (.error fault, disk') ∧
      disk.SameOutside [TableName.temporary generation] disk') ∨
    ∃ summary t disk',
      Draft.build disk generation layout filterBits (cells.map .ok) = (.ok summary, disk') ∧
      disk.Gains generation layout t disk' ∧ t.Holds cells := by
  rcases hb : Draft.build disk generation layout filterBits (cells.map .ok) with
    ⟨fault | summary, disk'⟩
  · exact Or.inl ⟨fault, disk', rfl,
      Draft.litter_of_publish (fun _ hd => (Draft.addAll_empty_eq_ok hd).1.generation) hb⟩
  · obtain ⟨t, hgains, ht⟩ := gains_of_build hb hfits
    exact Or.inr ⟨summary, t, disk', rfl, hgains, ht⟩

theorem flushTable_cases {s : Store} (hfits : s.FitsFilter) (task : FlushTask) :
    (task.buffer.cells = [] ∧ s.flushTable task = (none, s.acknowledge task.generation)) ∨
    (∃ fault disk, s.flushTable task = (some fault, { s with disk }) ∧
      s.disk.SameOutside [TableName.temporary task.generation] disk) ∨
    ∃ t disk, s.flushTable task =
        (none, (({ s with disk } : Store).register task.generation t).acknowledge task.generation) ∧
      s.disk.Gains task.generation s.settings.layout t disk ∧ t.Holds task.buffer.cells := by
  unfold flushTable
  by_cases he : task.buffer.isEmpty = true
  · exact Or.inl ⟨by simpa [Buffer.isEmpty] using he, if_pos he⟩
  · rw [if_neg he]
    refine Or.inr ?_
    rcases build_gains s.disk task.generation hfits task.buffer.cells with
      ⟨fault, disk, hb, hsame⟩ | ⟨summary, t, disk, hb, hgains, ht⟩
    · rw [hb]
      exact Or.inl ⟨fault, disk, rfl, hsame⟩
    · rw [hb]
      dsimp only
      rw [hgains.openTable]
      exact Or.inr ⟨t, disk, rfl, hgains, ht⟩

/-- Publishing the merge of all registered tables under the next generation. -/
def publishMerge (s : Store) : Except Fault Summary × Disk :=
  Draft.publish s.disk s.memory.nextGeneration s.settings.layout s.settings.filterBits
    (Draft.fillFrom s.tables.values)

/-- The merge is published only when all tables have been read to their ends. -/
theorem exists_merged {s : Store} {summary : Summary} {disk : Disk} (h : s.publishMerge = (.ok summary, disk)) :
    ∃ d sources merged, d.Published s.disk disk ∧
      (Draft.empty s.memory.nextGeneration s.settings.layout s.settings.filterBits).SameForm d ∧
      s.tables.values.mapM (·.scan []) = .ok sources ∧ mergeLists sources = merged.map .ok ∧
      d.Holds merged := by
  obtain ⟨d, hd, hp⟩ :=
    Draft.exists_published (fun _ hd => (Draft.sameForm_of_fillFrom hd).generation) h
  obtain ⟨sources, merged, hscan, hmerge, hholds, hform⟩ := Draft.fillFrom_eq_ok hd
  exact ⟨d, sources, merged, hp, hform, hscan, hmerge, hholds⟩

theorem litter_of_publishMerge {s : Store} {fault : Fault} {disk : Disk}
    (h : s.publishMerge = (.error fault, disk)) :
    s.disk.SameOutside [TableName.temporary s.memory.nextGeneration] disk :=
  Draft.litter_of_publish (fun _ hd => (Draft.sameForm_of_fillFrom hd).generation) h

theorem gains_of_publishMerge {s : Store} {summary : Summary} {disk : Disk}
    (h : s.publishMerge = (.ok summary, disk)) (hfits : s.FitsFilter) :
    ∃ t sources merged, s.disk.Gains s.memory.nextGeneration s.settings.layout t disk ∧
      s.tables.values.mapM (·.scan []) = .ok sources ∧ mergeLists sources = merged.map .ok ∧
      t.Holds merged := by
  obtain ⟨d, sources, merged, hp, hform, hscan, hmerge, hholds⟩ := exists_merged h
  obtain ⟨t, hgains, ht⟩ := hp.exists_gains hform hfits hholds
  exact ⟨t, sources, merged, hgains, hscan, hmerge, ht⟩

/-- It leaves at most its temporary file, or publishes the merge. -/
theorem publishMerge_gains {s : Store} (hfits : s.FitsFilter) :
    (∃ fault disk, s.publishMerge = (.error fault, disk) ∧
      s.disk.SameOutside [TableName.temporary s.memory.nextGeneration] disk) ∨
    ∃ summary t sources merged disk, s.publishMerge = (.ok summary, disk) ∧
      s.disk.Gains s.memory.nextGeneration s.settings.layout t disk ∧
      s.tables.values.mapM (·.scan []) = .ok sources ∧ mergeLists sources = merged.map .ok ∧
      t.Holds merged := by
  rcases hp : s.publishMerge with ⟨fault | summary, disk⟩
  · exact Or.inl ⟨fault, disk, rfl, litter_of_publishMerge hp⟩
  · obtain ⟨t, sources, merged, hgains, hscan, hmerge, ht⟩ := gains_of_publishMerge hp hfits
    exact Or.inr ⟨summary, t, sources, merged, disk, rfl, hgains, hscan, hmerge, ht⟩

/-- Without a generation for its table a compaction does nothing. -/
theorem compact_of_last {s : Store} (hr : ¬ s.HasRoomFor 1) : s.compact.2 = s := by
  unfold compact
  simp only [Memory.allocate_of_last hr]
  split
  · rfl
  · rfl

/-- A compaction of two tables or more that succeeds had a generation for its table. -/
theorem hasRoomFor_of_compact {s s' : Store} {outcome : Option Compaction}
    (hmany : ¬ s.tables.values.length < 2) (h : s.compact = (.ok outcome, s')) :
    s.HasRoomFor 1 := by
  by_contra hr
  unfold compact at h
  simp only [if_neg hmany, Memory.allocate_of_last hr] at h
  simp at h

/-- What compacting does once the merge has been published, or not. -/
theorem compact_of_publishMerge {s : Store} (hmany : ¬ s.tables.values.length < 2)
    (hr : s.HasRoomFor 1) :
    s.compact =
      match s.publishMerge with
      | (.error fault, disk) => (.error fault, { s with disk, memory := s.memory.spend })
      | (.ok output, disk) =>
        match disk.openTable (TableName.file s.memory.nextGeneration s.settings.layout) with
        | .error fault => (.error fault, { s with disk, memory := s.memory.spend })
        | .ok t => (.ok (some ⟨s.tables.values.map Table.generation, output⟩),
          ({ s with disk, memory := s.memory.spend } : Store).replaceTables
            s.tables.values t) := by
  unfold compact
  simp only [if_neg hmany, Memory.allocate_of_room hr]
  rw [← publishMerge]
  rcases s.publishMerge with ⟨_ | output, disk⟩
  · rfl
  · cases ho : disk.openTable (TableName.file s.memory.nextGeneration s.settings.layout) with
    | error => simp only [ho]
    | ok => simp only [ho]

theorem compact_cases {s : Store} (hfits : s.FitsFilter) (hr : s.HasRoomFor 1) :
    (s.tables.values.length < 2 ∧ s.compact = (.ok none, s)) ∨
    (∃ fault disk, s.compact = (.error fault, { s with disk, memory := s.memory.spend }) ∧
      s.disk.SameOutside [TableName.temporary s.memory.nextGeneration] disk) ∨
    ∃ compaction sources merged t disk summary, s.compact = (.ok (some compaction),
        ({ s with disk, memory := s.memory.spend } : Store).replaceTables s.tables.values t) ∧
      s.publishMerge = (.ok summary, disk) ∧
      s.tables.values.mapM (·.scan []) = .ok sources ∧ mergeLists sources = merged.map .ok ∧
      s.disk.Gains s.memory.nextGeneration s.settings.layout t disk ∧ t.Holds merged := by
  by_cases hfew : s.tables.values.length < 2
  · exact Or.inl ⟨hfew, if_pos hfew⟩
  · refine Or.inr ?_
    rw [compact_of_publishMerge hfew hr]
    rcases publishMerge_gains hfits with
      ⟨fault, disk, hp, hsame⟩ | ⟨summary, t, sources, merged, disk, hp, hgains, hs, hm, ht⟩
    · rw [hp]
      exact Or.inl ⟨fault, disk, rfl, hsame⟩
    · rw [hp]
      dsimp only
      rw [hgains.openTable]
      exact Or.inr ⟨_, sources, merged, t, disk, summary, rfl, rfl, hs, hm, hgains, ht⟩

theorem moves_work {s s' : Store} (hfits : s.FitsFilter) (hr : s.HasRoomFor 1) (h : Work s s') :
    Moves s [] s' := by
  cases h with
  | receive hq => exact Moves.single (.receive hq)
  | flush hb hf =>
    rcases flushTable_cases hfits _ with ⟨he, ho⟩ | ⟨fault, disk, ho, -⟩ | ⟨t, disk, ho, hg, ht⟩
    · rw [ho, Prod.mk.injEq] at hf
      obtain ⟨-, rfl⟩ := hf
      exact Moves.single (.acknowledge hb he)
    · rw [ho] at hf
      simp at hf
    · rw [ho, Prod.mk.injEq] at hf
      obtain ⟨-, rfl⟩ := hf
      exact Moves.single (.publish hb hg ht)
  | fail hb hf =>
    rcases flushTable_cases hfits _ with ⟨he, ho⟩ | ⟨fault, disk, ho, hs⟩ | ⟨t, disk, ho, -, -⟩
    · rw [ho] at hf
      simp at hf
    · rw [ho, Prod.mk.injEq] at hf
      obtain ⟨-, rfl⟩ := hf
      exact Moves.single (.litter hs)
    · rw [ho] at hf
      simp at hf
  | compact =>
    rcases compact_cases hfits hr with
      ⟨-, ho⟩ | ⟨fault, disk, ho, hs⟩ |
      ⟨_, sources, merged, t, disk, _, ho, -, hscan, hm, hg, ht⟩
    · rw [ho]
      exact .refl
    · rw [ho]
      have hlitter : Moves s [] { s with disk } := Moves.single (.litter hs)
      exact hlitter.move (.spend hr)
    · rw [ho, replaceTables_eq]
      exact Moves.single (.replace hr hscan hm hg ht)

/-- Every step is made of moves. -/
theorem Step.moves {s s' : Store} {cells : List Cell} (hfits : s.FitsFilter) (hr : s.HasRoomFor 1)
    (h : Step s cells s') : Moves s cells s' := by
  cases h with
  | put h => exact moves_write hr rfl h
  | delete h => exact moves_write hr rfl h
  | rotate h => exact moves_rotate hr h
  | close h => exact moves_close h
  | work h => exact moves_work hfits hr h
  | abandon hm hf => exact Moves.single (.abandon hm hf)

theorem Run.moves {start s : Store} {writes : List Cell} (hfits : start.FitsFilter)
    (h : Run start writes s) : Moves start writes s := by
  induction h with
  | refl => exact .refl
  | step _ hr hs ih =>
    refine ih.trans (hs.moves ?_ hr)
    rw [FitsFilter, ih.settings_eq]
    exact hfits

/-! ### What the worker registers -/

/-- A task that is done leaves memory and adds at most its generation to the registry; one that
fails changes the disk only. -/
theorem flushTable_registers (s : Store) (task : FlushTask) :
    (∃ fault disk, s.flushTable task = (some fault, { s with disk })) ∨
    ∃ disk tables, s.flushTable task =
        (none, { s with disk, tables, memory := s.memory.flushed task.generation }) ∧
      ∀ generation t, tables.find? generation = some t →
        generation = task.generation ∨ s.tables.find? generation = some t := by
  unfold flushTable
  by_cases he : task.buffer.isEmpty = true
  · rw [if_pos he]
    exact Or.inr ⟨s.disk, s.tables, rfl, fun _ _ ht => Or.inr ht⟩
  · rw [if_neg he]
    rcases Draft.build s.disk task.generation s.settings.layout s.settings.filterBits
      (task.buffer.cells.map .ok) with ⟨fault | summary, disk⟩
    · exact Or.inl ⟨fault, disk, rfl⟩
    · dsimp only
      cases disk.openTable (TableName.file task.generation s.settings.layout) with
      | error fault => exact Or.inl ⟨fault, disk, rfl⟩
      | ok table =>
        refine Or.inr ⟨disk, s.tables.insert task.generation table, rfl, fun generation t ht => ?_⟩
        rw [Generations.find?_insert] at ht
        split at ht
        · rename_i hg
          exact Or.inl hg.symm
        · exact Or.inr ht

theorem of_flushTable_eq_none {s s' : Store} {task : FlushTask}
    (h : s.flushTable task = (none, s')) :
    ∃ disk tables, s' = { s with disk, tables, memory := s.memory.flushed task.generation } ∧
      ∀ generation t, tables.find? generation = some t →
        generation = task.generation ∨ s.tables.find? generation = some t := by
  rcases flushTable_registers s task with ⟨fault, disk, ho⟩ | ⟨disk, tables, ho, ht⟩ <;>
    rw [ho, Prod.mk.injEq] at h
  · simp at h
  · exact ⟨disk, tables, h.2.symm, ht⟩

theorem of_flushTable_eq_some {s s' : Store} {task : FlushTask} {fault : Fault}
    (h : s.flushTable task = (some fault, s')) : ∃ disk, s' = { s with disk } := by
  rcases flushTable_registers s task with ⟨fault, disk, ho⟩ | ⟨disk, tables, ho, -⟩ <;>
    rw [ho, Prod.mk.injEq] at h
  · exact ⟨disk, h.2.symm⟩
  · simp at h

/-- A compaction spends at most one generation, and adds at most that one to the registry. -/
theorem compact_registers (s : Store) :
    s.compact.2 = s ∨
    ∃ disk tables, s.compact.2 = { s with disk, tables, memory := s.memory.spend } ∧
      ∀ generation t, tables.find? generation = some t →
        generation = s.memory.nextGeneration ∨ s.tables.find? generation = some t := by
  by_cases hfew : s.tables.values.length < 2
  · exact Or.inl (congrArg Prod.snd (show s.compact = (.ok none, s) from if_pos hfew))
  by_cases hr : ¬ s.HasRoomFor 1
  · exact Or.inl (compact_of_last hr)
  · refine Or.inr ?_
    rw [compact_of_publishMerge hfew (not_not.mp hr)]
    rcases s.publishMerge with ⟨fault | summary, disk⟩
    · exact ⟨disk, s.tables, rfl, fun _ _ ht => Or.inr ht⟩
    · dsimp only
      cases ho : disk.openTable (TableName.file s.memory.nextGeneration s.settings.layout) with
      | error fault => exact ⟨disk, s.tables, rfl, fun _ _ ht => Or.inr ht⟩
      | ok table =>
        obtain ⟨-, layout, hp⟩ := Disk.of_openTable_eq_ok ho
        rw [Disk.parse?_file, Option.some.injEq, Prod.mk.injEq] at hp
        dsimp only
        rw [replaceTables_eq]
        refine ⟨_, _, rfl, fun generation t ht => ?_⟩
        rcases find?_of_eraseAll_insert ht with ⟨hg, -⟩ | hold
        · exact Or.inl (hg.trans hp.1.symm)
        · exact Or.inr hold

end Store

end TableStore

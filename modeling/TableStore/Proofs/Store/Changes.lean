import Mathlib.Data.List.Pairwise
import TableStore.Proofs.Store.Cursors
import TableStore.Proofs.Store.Refinement
import TableStore.Proofs.Store.Visibility

/-! A store in use over a directory that changes behind its back. Files may go or be replaced at any
time, also between the points of a flush or a compaction: what is registered has been read into
memory, so that the store still holds versions only that were written or were there when it was
opened. When the stamps increase, the last write is newer than all of these, and it is what the
store shows right after it. -/

namespace TableStore

/-- A sound table of which all cells were written or there at first. -/
def Table.IsKnown (contents : Generations (List Cell)) (writes : List Cell) (t : Table) : Prop :=
  t.IsSound ∧ ∀ c ∈ t.cells, TableStore.IsKnown contents writes c.key c.version

variable {contents : Generations (List Cell)} {writes cells : List Cell} {key : Bytes}
  {u v : Version}

theorem Table.IsKnown.append {t : Table} (h : t.IsKnown contents writes) (more : List Cell) :
    t.IsKnown contents (writes ++ more) := ⟨h.1, fun c hc => (h.2 c hc).append more⟩

/-- What is written is newer than all that was known before. -/
theorem IsTimely.older {w : Cell} (h : IsTimely contents (writes ++ [w]))
    (hv : IsKnown contents writes key v) : v.Older w.version := by
  rcases hv with hv | ⟨cells, hm, hv⟩
  · exact (List.pairwise_append.mp h.increasing).2.2 _ hv w (List.mem_singleton_self w)
  · exact h.later cells hm _ hv w (List.mem_append_right _ (List.mem_singleton_self w))

/-- A write is the only one of its age. -/
theorem IsTimely.eq_of_same_age (h : IsTimely contents writes) (hu : ⟨key, u⟩ ∈ writes)
    (hv : IsKnown contents writes key v) (hage : u.stamp? = v.stamp?) : u = v := by
  rcases hv with hv | ⟨cells, hm, hv⟩
  · have hdistinct : writes.Pairwise fun a b : Cell => a.version.stamp? ≠ b.version.stamp? :=
      h.increasing.imp Version.Older.stamp?_ne
    have hsymm : Std.Symm fun a b : Cell => a.version.stamp? ≠ b.version.stamp? :=
      ⟨fun _ _ => Ne.symm⟩
    by_contra hne
    exact hdistinct.forall hu hv (fun he => hne (congrArg Cell.version he)) hage
  · exact absurd hage.symm (h.later cells hm _ hv _ hu).stamp?_ne

namespace Store

variable {s s' p start : Store} {task : FlushTask} {rest : List FlushTask}

/-! ### Changes -/

/-- What can happen to a store: it takes a step, it is on its way through a flush or a compaction,
it goes on in unregistering tables, or something happens to its directory. -/
inductive Change : Store → List Cell → Store → Prop
  | step {s s' : Store} {cells : List Cell} : s.HasRoomFor 1 → Step s cells s' → Change s cells s'
  | flushing {s p : Store} {task : FlushTask} {rest : List FlushTask} :
    s.backlog = task :: rest → FlushPoint s task p → Change s [] p
  | compacting {s p : Store} : s.HasRoomFor 1 → CompactionPoint s p → Change s [] p
  | unregister (s : Store) (gone : List Table) :
    Change s [] { s with tables := eraseAll gone s.tables }
  | disk (s : Store) (disk : Disk) : Change s [] { s with disk }

/-- Changes one after another, and all cells acknowledged. -/
inductive Use (start : Store) : List Cell → Store → Prop
  | start : Use start [] start
  | change {s s' : Store} {writes cells : List Cell} :
    Use start writes s → Change s cells s' → Use start (writes ++ cells) s'

theorem Run.use {start s : Store} {writes : List Cell} (h : Run start writes s) :
    Use start writes s := by
  induction h with
  | refl => exact .start
  | step _ hroom hs ih => exact ih.change (.step hroom hs)

/-! ### What a store knows -/

/-- All that a store holds was written, or it was there when the store was opened. -/
structure Knows (contents : Generations (List Cell)) (writes : List Cell) (s : Store) : Prop where
  ordered : s.memory.IsOrdered
  fits : s.FitsFilter
  tables : ∀ {generation t}, s.tables.find? generation = some t → t.IsKnown contents writes
  memory : ∀ {key v}, v ∈ s.memory.versions key → ⟨key, v⟩ ∈ writes
  tasks : ∀ task ∈ s.backlog ++ s.memory.queue, ∀ c ∈ task.buffer.cells, c ∈ writes

/-- What is known stays known while nothing is taken in but known tables. -/
theorem Knows.keep (h : s.Knows contents writes) (hs : s'.settings = s.settings)
    (ho : s'.memory.IsOrdered)
    (hm : ∀ {key v}, v ∈ s'.memory.versions key → v ∈ s.memory.versions key)
    (ht : ∀ {generation t}, s'.tables.find? generation = some t →
      s.tables.find? generation = some t ∨ t.IsKnown contents writes)
    (hq : ∀ task ∈ s'.backlog ++ s'.memory.queue, task ∈ s.backlog ++ s.memory.queue) :
    s'.Knows contents writes where
  ordered := ho
  fits := by
    rw [FitsFilter, hs]
    exact h.fits
  tables := fun hfound => (ht hfound).elim h.tables id
  memory := fun hv => h.memory (hm hv)
  tasks := fun task hmem => h.tasks task (hq task hmem)

theorem Knows.write (h : s.Knows contents writes) (hc : s.memory.closed = false) (cell : Cell) :
    ({ s with memory := s.memory.writeOnly cell } : Store).Knows contents (writes ++ [cell]) where
  ordered := h.ordered.writeOnly hc cell
  fits := h.fits
  tables := fun hfound => (h.tables hfound).append _
  memory := by
    intro key v hv
    rw [List.mem_append, List.mem_singleton]
    exact (mem_versions_of_writeOnly hv).imp h.memory id
  tasks := fun task hm c hc => List.mem_append_left _ (h.tasks task hm c hc)

theorem Knows.rotate (h : s.Knows contents writes) (hr : s.HasRoomFor 1) (final : Bool) :
    ({ s with memory := s.memory.turn final } : Store).Knows contents writes where
  ordered := h.ordered.turn hr final
  fits := h.fits
  tables := h.tables
  memory := fun hv => h.memory (Memory.versions_turn h.ordered final _ ▸ hv)
  tasks := by
    intro task hm c hc
    have hqueue : (s.memory.turn final).queue =
        s.memory.queue ++ [⟨s.memory.activeGeneration, s.memory.active, final⟩] := rfl
    rw [hqueue, ← List.append_assoc, List.mem_append, List.mem_singleton] at hm
    rcases hm with hm | rfl
    · exact h.tasks task hm c hc
    · have hactive := h.ordered.buffers s.memory.active (List.mem_append_right _ List.mem_cons_self)
      exact h.memory (mem_versions_iff.mpr (Or.inr (hactive.ascending.lookup_of_mem hc)))

theorem Knows.receive (h : s.Knows contents writes) (hq : s.memory.queue = task :: rest) :
    ({ s with
      memory := { s.memory with queue := rest }
      backlog := s.backlog ++ [task] } : Store).Knows contents writes := by
  refine h.keep rfl ?_ id Or.inl fun other hm => ?_
  · exact ⟨h.ordered.pending_lt, h.ordered.active_lt, h.ordered.buffers, h.ordered.closed⟩
  · have hall : s.backlog ++ s.memory.queue = s.backlog ++ [task] ++ rest := by
      rw [hq, List.append_assoc]
      rfl
    exact hall ▸ hm

theorem Knows.isSound (h : s.Knows contents writes) : s.IsSound where
  memory := h.ordered.isSound
  tables := by
    intro t hm
    obtain ⟨generation, hfound⟩ := Generations.mem_values_iff.mp hm
    exact (h.tables hfound).1

theorem Knows.disk (h : s.Knows contents writes) (hv : v ∈ s.versionsOnDisk key) :
    IsKnown contents writes key v := by
  obtain ⟨generation, t, hfound, hl⟩ := mem_versionsOnDisk_iff.mp hv
  exact (h.tables hfound).2 _ (mem_of_lookup hl)

/-- The table of a task is known. -/
theorem Knows.isKnown_task (h : s.Knows contents writes) (hb : s.backlog = task :: rest) {t : Table}
    (ht : t.Holds task.buffer.cells) : t.IsKnown contents writes := by
  refine ⟨ht.isSound, fun c hc => Or.inl ?_⟩
  rw [ht.cells_eq] at hc
  exact h.tasks task (by simp [hb]) c hc

/-- The merge of all tables is known. -/
theorem Knows.isKnown_merged (h : s.Knows contents writes) {sources : List (List Item)}
    {merged : List Cell} {t : Table} (hscan : s.tables.values.mapM (·.scan []) = .ok sources)
    (hm : mergeLists sources = merged.map .ok) (ht : t.Holds merged) :
    t.IsKnown contents writes := by
  refine ⟨ht.isSound, fun c hc => ?_⟩
  rw [ht.cells_eq] at hc
  have hl := ht.ascending.lookup_of_mem hc
  rw [lookup_merged h.isSound.tables hscan hm] at hl
  exact h.disk (Version.mem_of_newest?_eq_some hl)

/-- A known table is taken in. -/
theorem isKnown_of_insert {tables : Generations Table} {t other : Table}
    (ht : t.IsKnown contents writes) {added generation : UInt64}
    (hfound : (tables.insert added t).find? generation = some other) :
    tables.find? generation = some other ∨ other.IsKnown contents writes := by
  rw [Generations.find?_insert] at hfound
  split at hfound
  · exact Or.inr (Option.some.inj hfound ▸ ht)
  · exact Or.inl hfound

theorem Move.knows (h : s.Knows contents writes) (hm : Move s cells s') :
    s'.Knows contents (writes ++ cells) := by
  cases hm with
  | write cell hc => exact h.write hc cell
  | rotate final _ hr =>
    rw [List.append_nil]
    exact h.rotate hr final
  | receive hq =>
    rw [List.append_nil]
    exact h.receive hq
  | acknowledge hb =>
    rw [List.append_nil]
    refine h.keep rfl (h.ordered.flushed _) mem_versions_of_flushed Or.inl fun task hm => ?_
    rw [hb]
    exact List.mem_cons_of_mem _ hm
  | publish hb hd ht =>
    rw [List.append_nil]
    refine h.keep rfl (h.ordered.flushed _) mem_versions_of_flushed
      (isKnown_of_insert (h.isKnown_task hb ht)) fun task hm => ?_
    rw [hb]
    exact List.mem_cons_of_mem _ hm
  | litter =>
    rw [List.append_nil]
    exact h.keep rfl h.ordered id Or.inl fun _ hm => hm
  | spend hr =>
    rw [List.append_nil]
    exact h.keep rfl (h.ordered.spend hr) id Or.inl fun _ hm => hm
  | replace hr hscan hm hd ht =>
    rw [List.append_nil]
    exact h.keep rfl (h.ordered.spend hr) id
      (fun hfound => isKnown_of_insert (h.isKnown_merged hscan hm ht) (find?_of_eraseAll hfound))
      fun _ hm => hm
  | abandon =>
    rw [List.append_nil]
    exact h.keep rfl h.ordered id Or.inl fun _ hm => List.mem_append_right _ hm

theorem Moves.knows {before : List Cell} (h : s.Knows contents before) (hm : Moves s writes s') :
    s'.Knows contents (before ++ writes) := by
  induction hm with
  | refl => rwa [List.append_nil]
  | move _ hm ih => exact List.append_assoc _ _ _ ▸ hm.knows ih

theorem FlushPoint.knows (h : s.Knows contents writes) (hb : s.backlog = task :: rest)
    (hp : FlushPoint s task p) : p.Knows contents writes := by
  rcases hp.store_cases h.fits with ⟨_, rfl⟩ | ⟨-, rfl⟩ | ⟨t, _, -, ht, rfl | rfl⟩
  · exact h.keep rfl h.ordered id Or.inl fun _ hm => hm
  · exact h.keep rfl (h.ordered.flushed _) mem_versions_of_flushed Or.inl fun _ hm => hm
  · exact h.keep rfl h.ordered id (isKnown_of_insert (h.isKnown_task hb ht)) fun _ hm => hm
  · exact h.keep rfl (h.ordered.flushed _) mem_versions_of_flushed
      (isKnown_of_insert (h.isKnown_task hb ht)) fun _ hm => hm

theorem CompactionPoint.knows (h : s.Knows contents writes) (hr : s.HasRoomFor 1)
    (hp : CompactionPoint s p) : p.Knows contents writes := by
  rcases hp.store_cases h.fits with
    rfl | ⟨_, rfl⟩ | ⟨t, _, _, _, _, -, hscan, hmerge, ht, -, rfl⟩
  · exact h
  · exact h.keep rfl (h.ordered.spend hr) id Or.inl fun _ hm => hm
  · exact h.keep rfl (h.ordered.spend hr) id
      (fun hfound => isKnown_of_insert (h.isKnown_merged hscan hmerge ht)
        (find?_of_eraseAll hfound)) fun _ hm => hm

theorem Change.knows (h : s.Knows contents writes) (hc : Change s cells s') :
    s'.Knows contents (writes ++ cells) := by
  cases hc with
  | step hr hs => exact (hs.moves h.fits hr).knows h
  | flushing hb hp =>
    rw [List.append_nil]
    exact hp.knows h hb
  | compacting hr hp =>
    rw [List.append_nil]
    exact hp.knows h hr
  | unregister =>
    rw [List.append_nil]
    exact h.keep rfl h.ordered id (fun hfound => Or.inl (find?_of_eraseAll hfound))
      fun _ hm => hm
  | disk =>
    rw [List.append_nil]
    exact h.keep rfl h.ordered id Or.inl fun _ hm => hm

theorem Use.knows (h : start.Knows contents []) (hu : Use start writes s) :
    s.Knows contents writes := by
  induction hu with
  | start => exact h
  | change _ hc ih => exact hc.knows ih

/-- A store that has just been opened knows what its tables hold. -/
theorem Opened.knows {settings : Settings} {disk : Disk} (h : Opened settings disk s)
    (hd : disk.IsUsable) (hf : Draft.FilterFits settings.layout settings.filterBits)
    (hs : ∀ t ∈ s.tables.values, t.IsSound) : s.Knows s.contents [] := by
  have hcoherent := (h.coherent hd hf).1
  refine ⟨hcoherent.ordered, hcoherent.fits, fun {generation t} hfound => ?_, ?_, ?_⟩
  · have hm : t ∈ s.tables.values := Generations.mem_values_iff.mpr ⟨generation, hfound⟩
    refine ⟨hs t hm, fun c hc => Or.inr ⟨t.cells, ?_, hc⟩⟩
    rw [contents, Generations.values_map]
    exact List.mem_map_of_mem hm
  · intro key v hv
    rw [h.versions_eq] at hv
    simp at hv
  · obtain ⟨_, hmemory, -⟩ := h.memory_eq_empty
    rw [h.backlog, hmemory]
    simp [Memory.empty]

/-! ### The memory goes on -/

theorem FlushPoint.carries (hp : FlushPoint s task p) (written : Option Cell) :
    s.memory.Carries p.memory written := by
  cases hp with
  | writing | published => exact .refl s.memory
  | takingIn n =>
    rcases takeInAll_handover _ task _ n with hstore | hstore | hstore <;> rw [hstore]
    · exact .refl s.memory
    · exact .refl s.memory
    · exact Memory.carries_flushed _ _
  | ended =>
    rcases flushTable_registers s task with ⟨_, _, ho⟩ | ⟨_, _, ho, -⟩ <;> rw [ho]
    · exact .refl s.memory
    · exact Memory.carries_flushed _ _

theorem carries_compact (hr : s.HasRoomFor 1) (written : Option Cell) :
    s.memory.Carries s.compact.2.memory written := by
  rcases compact_registers s with ho | ⟨_, _, ho, -⟩ <;> rw [ho]
  · exact .refl s.memory
  · exact Memory.carries_spend hr

theorem CompactionPoint.carries (hp : CompactionPoint s p) (hr : s.HasRoomFor 1)
    (written : Option Cell) : s.memory.Carries p.memory written := by
  cases hp with
  | writing | published => exact Memory.carries_spend hr
  | replacing n =>
    cases n with
    | zero => exact Memory.carries_spend hr
    | succ n =>
      rw [takeInAll_replacement]
      exact Memory.carries_spend hr
  | ended => exact carries_compact hr written

theorem Work.carries (hw : Work s s') (hr : s.HasRoomFor 1) (written : Option Cell) :
    s.memory.Carries s'.memory written := by
  cases hw with
  | receive => exact Memory.carries_of_eq (UInt64.le_refl _) fun _ _ => rfl
  | flush hb hf =>
    obtain ⟨_, _, rfl, -⟩ := of_flushTable_eq_none hf
    exact Memory.carries_flushed _ _
  | fail hb hf =>
    obtain ⟨_, rfl⟩ := of_flushTable_eq_some hf
    exact .refl s.memory
  | compact => exact carries_compact hr written

/-- No change takes a table from memory that a cursor may read. -/
theorem Change.carries (hc : Change s cells s') : s.memory.Carries s'.memory cells.head? := by
  cases hc with
  | step hr hs =>
    cases hs with
    | put h | delete h =>
      obtain ⟨memory, hm, rfl⟩ := exists_memory_of_write h
      exact Memory.carries_write hr hm
    | rotate h => exact Memory.carries_forceRotate hr h
    | close h => exact Memory.carries_close h
    | work hw => exact hw.carries hr _
    | abandon => exact .refl s.memory
  | flushing _ hp => exact hp.carries _
  | compacting hr hp => exact hp.carries hr _
  | unregister | disk => exact .refl s.memory

/-! ### Reading right after a write -/

theorem mem_versions_of_write {m m' : Memory} {cell : Cell} (ho : m.IsOrdered)
    (h : m.write cell = .ok m') : cell.version ∈ m'.versions cell.key := by
  have hin : cell.version ∈ (m.writeOnly cell).versions cell.key := by
    refine mem_versions_iff.mpr (Or.inr ?_)
    exact (Buffer.lookup_write m.active cell cell.key).trans (if_pos rfl)
  obtain ⟨hc, rfl | ⟨-, rfl⟩⟩ := Memory.write_cases h
  · exact hin
  · rwa [Memory.versions_turn (ho.writeOnly hc cell)]

/-- A change writes nothing, or one cell, which is then in memory. -/
theorem Change.cells_cases (hc : Change s cells s') (ho : s.memory.IsOrdered) :
    cells = [] ∨ ∃ w, cells = [w] ∧ w.version ∈ s'.memory.versions w.key := by
  cases hc with
  | step hr hs =>
    cases hs with
    | put h | delete h =>
      obtain ⟨memory, hm, rfl⟩ := exists_memory_of_write h
      exact Or.inr ⟨_, rfl, mem_versions_of_write ho hm⟩
    | rotate | close | work | abandon => exact Or.inl rfl
  | flushing | compacting | unregister | disk => exact Or.inl rfl

/-- The version of a key is the newest in memory and on disk. -/
theorem Knows.version (h : s.Knows contents writes) (key : Bytes) : s.version key =
    .ok (Version.newest (s.memory.versions key ++ s.versionsOnDisk key)) := by
  rw [h.isSound.version, Version.newest_cons, Version.newest_append]

/-- When the stamps increase, memory and disk may be read in either order. -/
theorem Knows.newest_comm (h : s.Knows contents writes) (ht : IsTimely contents writes)
    (key : Bytes) : Version.newest (s.versionsOnDisk key ++ s.memory.versions key) =
      Version.newest (s.memory.versions key ++ s.versionsOnDisk key) := by
  rw [Version.newest_append, Version.newest_append]
  rcases Version.later_comm_or (Version.newest (s.versionsOnDisk key))
    (Version.newest (s.memory.versions key)) with he | ⟨hm, hd, hage⟩
  · exact he
  · rw [hm, hd]
    rcases Version.newest_mem (s.memory.versions key) with ha | hin
    · rw [ha] at hage ⊢
      cases hv : Version.newest (s.versionsOnDisk key) with
      | absent => rfl
      | present | tombstone => simp [hv, Version.stamp?] at hage
    · rcases Version.newest_mem (s.versionsOnDisk key) with ha | hdisk
      · rw [ha] at hage ⊢
        cases hv : Version.newest (s.memory.versions key) with
        | absent => rfl
        | present | tombstone => simp [hv, Version.stamp?] at hage
      · exact ht.eq_of_same_age (h.memory hin) (h.disk hdisk) hage

/-- The last write of a key is what the key shows, as long as it is in memory. -/
theorem Knows.version_of_last (h : s.Knows contents writes) (ht : IsTimely contents writes)
    (hv : lastWrite? key writes = some v) (hm : v ∈ s.memory.versions key) :
    s.version key = .ok v := by
  rw [h.version]
  refine congrArg _ (ht.newest_eq hv (fun u hu => ?_) (List.mem_append_left _ hm)
    v.not_older_self)
  exact (List.mem_append.mp hu).elim (fun hu => Or.inl (h.memory hu)) h.disk

end Store

end TableStore

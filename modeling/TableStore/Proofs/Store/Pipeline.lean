import TableStore.Proofs.Store.Closing

/-! The way of a table from memory to disk, over every run and whatever fails. The pending tables
are those of the tasks in the backlog and then in the queue, until the worker gives up behind the
final task; the generations flushed, pending, active and next follow one another, and those of the
registered tables are spent. Nothing here depends on what is in a table, so unlike the order of
`IsCoherent` it needs no bound on the filters. -/

namespace TableStore

namespace Store

variable {s s' : Store} {tasks : List FlushTask} {cells writes : List Cell}

/-! ### The tasks that are owed -/

/-- The tasks whose tables are pending. They are the backlog and then the queue, unless the worker
has given them up, which it does behind the final one; then no task is kept. -/
structure Owes (s : Store) (tasks : List FlushTask) : Prop where
  pending : s.memory.pending.entries = tasks.map fun task => (task.generation, task.buffer)
  ascending : tasks.Pairwise fun a b => a.generation < b.generation
  final : FinalIsLast s.memory.closed tasks
  kept : s.backlog ++ s.memory.queue = tasks ∨
    s.backlog ++ s.memory.queue = [] ∧ ∃ task ∈ tasks, task.final = true

/-- The order of the tasks is that of the pending tables. -/
theorem owes_of_entries
    (hp : s.memory.pending.entries = tasks.map fun task => (task.generation, task.buffer))
    (hf : FinalIsLast s.memory.closed tasks)
    (hk : s.backlog ++ s.memory.queue = tasks ∨
      s.backlog ++ s.memory.queue = [] ∧ ∃ task ∈ tasks, task.final = true) : s.Owes tasks := by
  have hasc := s.memory.pending.ascending
  rw [hp, List.pairwise_map] at hasc
  exact ⟨hp, hasc, hf, hk⟩

/-- While a task is kept, all are. -/
theorem Owes.kept_of_mem (h : s.Owes tasks) {task : FlushTask}
    (hm : task ∈ s.backlog ++ s.memory.queue) : s.backlog ++ s.memory.queue = tasks :=
  h.kept.resolve_right fun ⟨hnil, _⟩ => by simp [hnil] at hm

theorem Owes.turn (h : s.Owes tasks) (ho : s.memory.IsOrdered) (hc : s.memory.closed = false)
    (final : Bool) :
    ({ s with memory := s.memory.turn final } : Store).Owes
      (tasks ++ [⟨s.memory.activeGeneration, s.memory.active, final⟩]) := by
  have hfinal := h.final
  rw [hc] at hfinal
  -- An open memory has met no final task, so nothing was given up.
  have hkept : s.backlog ++ s.memory.queue = tasks := by
    refine h.kept.resolve_right fun ⟨_, task, hm, hf⟩ => ?_
    obtain ⟨front, back, hs⟩ := List.mem_iff_append.mp hm
    simpa using (hfinal front task back hs hf).1
  refine owes_of_entries ?_ (hfinal.concat ⟨_, _, final⟩) (Or.inl ?_)
  · dsimp only
    rw [Memory.entries_turn ho, h.pending, List.map_append]
    rfl
  · show s.backlog ++ (s.memory.queue ++ [_]) = _
    rw [← List.append_assoc, hkept]

theorem Owes.flushed (h : s.Owes tasks) {task : FlushTask} {rest : List FlushTask}
    (hb : s.backlog = task :: rest) (disk : Disk) (tables : Generations Table) :
    ({ s with
      disk, tables, backlog := rest
      memory := s.memory.flushed task.generation } : Store).Owes
      (rest ++ s.memory.queue) := by
  have hkept := h.kept_of_mem (List.mem_append_left _ (hb ▸ List.mem_cons_self))
  rw [hb, List.cons_append] at hkept
  subst hkept
  exact owes_of_entries (Generations.entries_erase_head h.pending) h.final.tail (Or.inl rfl)

theorem Owes.received (h : s.Owes tasks) {task : FlushTask} {rest : List FlushTask}
    (hq : s.memory.queue = task :: rest) :
    ({ s with
      memory := { s.memory with queue := rest }
      backlog := s.backlog ++ [task] } : Store).Owes tasks := by
  have hsame : s.backlog ++ [task] ++ rest = s.backlog ++ s.memory.queue := by
    rw [hq, List.append_assoc]
    rfl
  refine ⟨h.pending, h.ascending, h.final, ?_⟩
  dsimp only
  rw [hsame]
  exact h.kept

/-- The final task is the last of all, so none is in the queue once it is in the backlog. -/
theorem Owes.queue_eq_nil (h : s.Owes tasks) {task : FlushTask} (hm : task ∈ s.backlog)
    (hf : task.final = true) : s.memory.queue = [] := by
  have hkept := h.kept_of_mem (List.mem_append_left _ hm)
  obtain ⟨front, back, hs⟩ := List.mem_iff_append.mp hm
  have hlast := (h.final front task (back ++ s.memory.queue) (by simp [← hkept, hs]) hf).2
  exact (List.append_eq_nil_iff.mp hlast).2

theorem Owes.abandoned (h : s.Owes tasks) {task : FlushTask} (hm : task ∈ s.backlog)
    (hf : task.final = true) : ({ s with backlog := [] } : Store).Owes tasks := by
  have hkept := h.kept_of_mem (List.mem_append_left _ hm)
  exact ⟨h.pending, h.ascending, h.final,
    Or.inr ⟨by simp [h.queue_eq_nil hm hf], task, hkept ▸ List.mem_append_left _ hm, hf⟩⟩

/-! ### The pipeline -/

/-- The relation between all places that hold generations: what was flushed comes before the
pending tables, these before the active one and that before the next; what is registered was handed
out and is neither pending nor active; and the pending tables are owed, in order. -/
structure IsPipelined (s : Store) : Prop where
  ordered : s.memory.IsOrdered
  flushedBelow : s.memory.IsFlushedBelow
  registered : ∀ generation t, s.tables.find? generation = some t → s.memory.IsSpent generation
  owes : ∃ tasks, s.Owes tasks

theorem IsPipelined.turn (h : s.IsPipelined) (hc : s.memory.closed = false)
    (hr : s.HasRoomFor 1) (final : Bool) :
    ({ s with memory := s.memory.turn final } : Store).IsPipelined where
  ordered := h.ordered.turn hr final
  flushedBelow := h.flushedBelow.turn h.ordered final
  registered := fun generation t ht => (h.registered generation t ht).turn hr final
  owes := by
    obtain ⟨tasks, howes⟩ := h.owes
    exact ⟨_, howes.turn h.ordered hc final⟩

theorem IsPipelined.writeOnly (h : s.IsPipelined) (hc : s.memory.closed = false) (cell : Cell) :
    ({ s with memory := s.memory.writeOnly cell } : Store).IsPipelined where
  ordered := h.ordered.writeOnly hc cell
  flushedBelow := ⟨h.flushedBelow.lt_pending, h.flushedBelow.lt_active⟩
  registered := fun generation t ht =>
    have hs := h.registered generation t ht
    ⟨hs.lt_next, hs.ne_active, hs.not_pending⟩
  owes := by
    obtain ⟨tasks, howes⟩ := h.owes
    exact ⟨tasks, howes.pending, howes.ascending, howes.final, howes.kept⟩

theorem IsPipelined.write (h : s.IsPipelined) (hr : s.HasRoomFor 1) {cell : Cell}
    (hw : s.write cell = .ok s') : s'.IsPipelined := by
  obtain ⟨memory, hm, rfl⟩ := exists_memory_of_write hw
  obtain ⟨hc, hm⟩ := Memory.write_cases hm
  have hwritten := h.writeOnly hc cell
  rcases hm with rfl | ⟨-, rfl⟩
  · exact hwritten
  · exact hwritten.turn hc hr false

theorem IsPipelined.flushed (h : s.IsPipelined) {task : FlushTask} {rest : List FlushTask}
    (hb : s.backlog = task :: rest) (disk : Disk) {tables : Generations Table}
    (ht : ∀ generation t, tables.find? generation = some t →
      generation = task.generation ∨ s.tables.find? generation = some t) :
    ({ s with
      disk, tables, backlog := rest
      memory := s.memory.flushed task.generation } : Store).IsPipelined := by
  obtain ⟨tasks, howes⟩ := h.owes
  have hkept := howes.kept_of_mem (List.mem_append_left _ (hb ▸ List.mem_cons_self))
  rw [hb, List.cons_append] at hkept
  have hentries := howes.pending
  rw [← hkept, List.map_cons] at hentries
  have hfound : s.memory.pending.find? task.generation = some task.buffer := by
    rw [← Generations.mem_entries_iff, hentries]
    exact List.mem_cons_self
  refine ⟨h.ordered.flushed _, h.flushedBelow.flushed h.ordered hentries, fun generation t hf => ?_,
    ⟨_, howes.flushed hb disk tables⟩⟩
  rcases ht generation t hf with rfl | hold
  · exact h.ordered.isSpent_flushed hfound
  · exact (h.registered generation t hold).flushed _

theorem IsPipelined.spend (h : s.IsPipelined) (hr : s.HasRoomFor 1) (disk : Disk)
    {tables : Generations Table}
    (ht : ∀ generation t, tables.find? generation = some t →
      generation = s.memory.nextGeneration ∨ s.tables.find? generation = some t) :
    ({ s with disk, tables, memory := s.memory.spend } : Store).IsPipelined where
  ordered := h.ordered.spend hr
  flushedBelow := ⟨h.flushedBelow.lt_pending, h.flushedBelow.lt_active⟩
  registered := by
    intro generation t hf
    rcases ht generation t hf with rfl | hold
    · exact h.ordered.isSpent_spend hr
    · exact (h.registered generation t hold).spend hr
  owes := by
    obtain ⟨tasks, howes⟩ := h.owes
    exact ⟨tasks, howes.pending, howes.ascending, howes.final, howes.kept⟩

theorem Work.pipelined (h : s.IsPipelined) (hr : s.HasRoomFor 1) (hw : Work s s') :
    s'.IsPipelined := by
  cases hw with
  | receive hq =>
    obtain ⟨tasks, howes⟩ := h.owes
    exact ⟨⟨h.ordered.pending_lt, h.ordered.active_lt, h.ordered.buffers, h.ordered.closed⟩,
      ⟨h.flushedBelow.lt_pending, h.flushedBelow.lt_active⟩,
      fun generation t ht =>
        have hs := h.registered generation t ht
        ⟨hs.lt_next, hs.ne_active, hs.not_pending⟩,
      tasks, howes.received hq⟩
  | flush hb hf =>
    obtain ⟨disk, tables, rfl, ht⟩ := of_flushTable_eq_none hf
    exact h.flushed hb disk ht
  | fail hb hf =>
    obtain ⟨disk, rfl⟩ := of_flushTable_eq_some hf
    obtain ⟨tasks, howes⟩ := h.owes
    exact ⟨h.ordered, h.flushedBelow, h.registered, tasks, howes.pending, howes.ascending,
      howes.final, howes.kept⟩
  | compact =>
    rcases compact_registers s with ho | ⟨disk, tables, ho, ht⟩ <;> rw [ho]
    · exact h
    · exact h.spend hr disk ht

theorem Step.pipelined (h : s.IsPipelined) (hr : s.HasRoomFor 1) (hs : Step s cells s') :
    s'.IsPipelined := by
  cases hs with
  | put hw => exact h.write hr hw
  | delete hw => exact h.write hr hw
  | rotate hm =>
    obtain ⟨hc, ⟨-, -, rfl⟩ | ⟨-, -, -, rfl⟩⟩ := Memory.forceRotate_cases hm
    · exact h
    · exact h.turn hc hr false
  | close hm =>
    obtain ⟨-, rfl⟩ | ⟨hc, -, rfl⟩ := Memory.close_cases hm
    · exact h
    · exact h.turn hc hr true
  | work hw => exact hw.pipelined h hr
  | abandon hm hf =>
    obtain ⟨tasks, howes⟩ := h.owes
    exact ⟨h.ordered, h.flushedBelow, h.registered, tasks, howes.abandoned hm hf⟩

/-- A store that has just been opened owes nothing. -/
theorem Opened.pipelined {settings : Settings} {disk : Disk} (h : Opened settings disk s) :
    s.IsPipelined := by
  obtain ⟨active, hmemory, hpos, hroom, hlt⟩ := h.memory_eq_empty
  refine ⟨?_, ?_, fun generation t ht => ?_, [], owes_of_entries ?_ (finalIsLast_nil _)
    (Or.inl ?_)⟩
  · rw [hmemory]
    exact Memory.isOrdered_empty _ _ hroom
  · rw [hmemory]
    exact Memory.isFlushedBelow_empty _ _ _ hpos
  · obtain ⟨hg, name, ho⟩ := h.registered ht
    obtain ⟨-, layout, hp⟩ := Disk.of_openTable_eq_ok ho
    rw [hmemory]
    exact hg ▸ Memory.isSpent_empty _ _ hroom (hlt (Disk.isSome_of_openTable ho) hp)
  · rw [hmemory]
    rfl
  · rw [hmemory, h.backlog]
    rfl

/-- The pipeline is in order after every run, whatever failed on the way. -/
theorem Run.isPipelined {settings : Settings} {disk : Disk} {start : Store}
    (hl : load settings disk = .ok start) (h : Run start writes s) : s.IsPipelined := by
  induction h with
  | refl => exact (opened_of_load hl).pipelined
  | step _ hr hs ih => exact hs.pipelined ih hr

/-- A write that fills the active table leaves one task in the queue. -/
theorem pipelined_after_put : ∃ start s,
    load { flushThreshold := 0 } (.ofEmpty "data") = .ok start ∧
    start.put [97] [98] 1 = .ok s ∧ s.memory.queue.length = 1 ∧ s.IsPipelined := by
  have hvalid : Settings.validate { flushThreshold := 0 } = .ok () := rfl
  obtain ⟨start, hl⟩ := exists_load_ofEmpty hvalid
  obtain ⟨s, hput, hroom, hqueue⟩ : ∃ s, start.put [97] [98] 1 = .ok s ∧ start.HasRoomFor 1 ∧
      s.memory.queue.length = 1 := by
    cases hl
    exact ⟨_, rfl, by decide +kernel, by decide +kernel⟩
  exact ⟨start, s, hl, hput, hqueue,
    Run.isPipelined hl (.step .refl hroom (.put hput))⟩

/-- When a close has failed, a table is pending that is neither in the backlog nor in the queue. -/
theorem pending_after_failed_close : ∃ start s writes,
    load { layout := .plain, filterBits := 64 } obstructed = .ok start ∧ Run start writes s ∧
    s.memory.pending.keys ≠ (s.backlog ++ s.memory.queue).map FlushTask.generation := by
  have hvalid : Settings.validate { layout := .plain, filterBits := 64 } = .ok () := rfl
  have hpath : obstructed.pathFault? = none := by decide
  obtain ⟨start, hl⟩ := exists_load hvalid hpath (by decide)
  obtain ⟨s, hput, hroom, hrest, hkeys⟩ : ∃ s, start.put [97] [98] 1 = .ok s ∧
      start.HasRoomFor 1 ∧ s.HasRoomFor (s.waiting + 3) ∧
      s.close.2.memory.pending.keys ≠
        (s.close.2.backlog ++ s.close.2.memory.queue).map FlushTask.generation := by
    cases hl
    exact ⟨_, rfl, by decide +kernel, by decide +kernel, by decide +kernel⟩
  have hrun : Run start [⟨[97], .present 1 [98]⟩] s := Run.refl.step hroom (.put hput)
  exact ⟨start, s.close.2, _, hl, hrun.trans (run_close hrest), hkeys⟩

end Store

end TableStore

import TableStore.Proofs.Store.Moves
import TableStore.Proofs.Store.Recovery

/-! The order that every store in use keeps. The pending tables are the tasks of the backlog and of
the queue, in order, unless the backlog was given up; their generations lie below that of the
active table, which lies below the next one; and every generation that names a file or a
registered table is spent: it is none of these and will never be handed out again. Each registered
table opens under some name. -/

namespace TableStore

namespace Store

/-! ### Tasks and pending tables -/

/-- The pending tables are the tasks that are not done. -/
def IsAligned (s : Store) : Prop :=
  s.memory.pending.entries =
    (s.backlog ++ s.memory.queue).map fun task => (task.generation, task.buffer)

theorem IsAligned.turn {s : Store} (h : s.IsAligned) (ho : s.memory.IsOrdered) (final : Bool) :
    ({ s with memory := s.memory.turn final } : Store).IsAligned := by
  have hqueue : (s.memory.turn final).queue =
      s.memory.queue ++ [⟨s.memory.activeGeneration, s.memory.active, final⟩] := rfl
  rw [IsAligned] at h ⊢
  rw [Memory.entries_turn ho, hqueue, h, ← List.append_assoc]
  simp

theorem IsAligned.flushed {s : Store} (h : s.IsAligned) {task : FlushTask}
    {rest : List FlushTask} (hb : s.backlog = task :: rest) :
    ({ s with memory := s.memory.flushed task.generation, backlog := rest } : Store).IsAligned := by
  rw [IsAligned, hb] at h
  exact Generations.entries_erase_head h

theorem IsAligned.received {s : Store} (h : s.IsAligned) {task : FlushTask}
    {rest : List FlushTask} (hq : s.memory.queue = task :: rest) :
    ({ s with
      memory := { s.memory with queue := rest }
      backlog := s.backlog ++ [task] } : Store).IsAligned := by
  rw [IsAligned, hq] at h
  rw [IsAligned, List.append_assoc]
  exact h

/-- A final task is the last one, and there is one only when the memory is closed. -/
def FinalIsLast (closed : Bool) (tasks : List FlushTask) : Prop :=
  ∀ front task back, tasks = front ++ task :: back → task.final = true →
    closed = true ∧ back = []

theorem finalIsLast_nil (closed : Bool) : FinalIsLast closed [] := by
  intro front task back hs
  simp at hs

theorem FinalIsLast.tail {closed : Bool} {task : FlushTask} {rest : List FlushTask}
    (h : FinalIsLast closed (task :: rest)) : FinalIsLast closed rest :=
  fun front last back hs hl => h (task :: front) last back (congrArg (task :: ·) hs) hl

/-- A task may come behind the others while none of them is the final one. -/
theorem FinalIsLast.concat {tasks : List FlushTask} (h : FinalIsLast false tasks)
    (task : FlushTask) : FinalIsLast task.final (tasks ++ [task]) := by
  intro front last back hs hl
  rcases List.eq_nil_or_concat back with rfl | ⟨init, other, rfl⟩
  · have hlast := (List.append_inj' hs rfl).2
    rw [List.cons.injEq] at hlast
    exact ⟨hlast.1 ▸ hl, rfl⟩
  · rw [List.concat_eq_append, ← List.cons_append, ← List.append_assoc] at hs
    exact absurd (h front last init (List.append_inj' hs rfl).1 hl).1 Bool.false_ne_true

/-- The order that every store in use keeps. -/
structure IsCoherent (s : Store) : Prop where
  ordered : s.memory.IsOrdered
  fits : s.FitsFilter
  names : ∀ {name}, (s.disk.find? name).isSome → Text.Path.IsEntryName name
  spent : ∀ {name generation layout}, (s.disk.find? name).isSome →
    TableName.parse? (s.disk.pathOf name) = some (generation, layout) →
    s.memory.IsSpent generation
  registered : ∀ {generation t}, s.tables.find? generation = some t →
    t.generation = generation ∧ ∃ name, s.disk.openTable name = .ok t
  tasks : s.IsAligned ∨ s.memory.closed = true ∧ s.backlog = [] ∧ s.memory.queue = []
  final : ∀ {front task back}, s.backlog ++ s.memory.queue = front ++ task :: back →
    task.final = true → s.memory.closed = true ∧ back = []

variable {s : Store}

theorem IsCoherent.spent_of_openTable (h : s.IsCoherent) {name : String} {t : Table}
    (ho : s.disk.openTable name = .ok t) : s.memory.IsSpent t.generation := by
  obtain ⟨-, layout, hp⟩ := Disk.of_openTable_eq_ok ho
  exact h.spent (Disk.isSome_of_openTable ho) hp

theorem IsCoherent.spent_of_find? (h : s.IsCoherent) {generation : UInt64} {t : Table}
    (ht : s.tables.find? generation = some t) : s.memory.IsSpent generation := by
  obtain ⟨hg, name, ho⟩ := h.registered ht
  exact hg ▸ h.spent_of_openTable ho

/-- A registered table is read from the file with its name. -/
theorem IsCoherent.openTable_fileName (h : s.IsCoherent) {generation : UInt64} {t : Table}
    (ht : s.tables.find? generation = some t) : s.disk.openTable t.fileName = .ok t := by
  obtain ⟨-, name, ho⟩ := h.registered ht
  rwa [Disk.fileName_of_openTable ho (h.names (Disk.isSome_of_openTable ho))]

theorem IsCoherent.aligned (h : s.IsCoherent) {task : FlushTask} {rest : List FlushTask}
    (hb : s.backlog = task :: rest) : s.IsAligned := by
  rcases h.tasks with ht | ⟨-, hnil, -⟩
  · exact ht
  · rw [hnil] at hb
    simp at hb

/-- While there is a backlog, the pending tables are the tasks. -/
theorem IsCoherent.entries_eq (h : s.IsCoherent) {task : FlushTask} {rest : List FlushTask}
    (hb : s.backlog = task :: rest) : s.memory.pending.entries =
      (task.generation, task.buffer) ::
        (rest ++ s.memory.queue).map fun task => (task.generation, task.buffer) := by
  have haligned := h.aligned hb
  rw [IsAligned, hb] at haligned
  exact haligned

theorem IsCoherent.find?_task (h : s.IsCoherent) {task : FlushTask} {rest : List FlushTask}
    (hb : s.backlog = task :: rest) :
    s.memory.pending.find? task.generation = some task.buffer := by
  rw [← Generations.mem_entries_iff, h.entries_eq hb]
  exact List.mem_cons_self

/-- The generation that is handed out next is fresh on disk. -/
theorem IsCoherent.next_not_registered (h : s.IsCoherent) :
    s.tables.find? s.memory.nextGeneration = none := by
  cases ht : s.tables.find? s.memory.nextGeneration with
  | none => rfl
  | some t => exact absurd (h.spent_of_find? ht).lt_next (UInt64.lt_irrefl _)

/-- The table that takes the place of all others is the only one registered. -/
theorem find?_replaced_of_fresh {t : Table} {disk : Disk}
    (hregistered : ∀ {g u}, s.tables.find? g = some u → u.generation = g)
    (hfresh : s.tables.find? t.generation = none) (generation : UInt64) :
    (s.replaced t disk).tables.find? generation =
      if t.generation = generation then some t else none := by
  have hmem : generation ∈ s.tables.values.map Table.generation ↔
      ∃ t', s.tables.find? generation = some t' := by
    rw [List.mem_map]
    constructor
    · rintro ⟨t', hm, rfl⟩
      obtain ⟨g, ht'⟩ := Generations.mem_values_iff.mp hm
      exact ⟨t', hregistered ht' ▸ ht'⟩
    · rintro ⟨t', ht'⟩
      exact ⟨t', Generations.mem_values_iff.mpr ⟨_, ht'⟩, hregistered ht'⟩
  rw [tables_replaced, find?_eraseAll, Generations.find?_insert]
  by_cases hr : ∃ t', s.tables.find? generation = some t'
  · have hne : t.generation ≠ generation := by
      rintro rfl
      rw [hfresh] at hr
      simp at hr
    rw [if_pos (hmem.mpr hr), if_neg hne]
  · rw [if_neg fun hm => hr (hmem.mp hm)]
    have hnone : s.tables.find? generation = none := by
      cases ht : s.tables.find? generation with
      | none => rfl
      | some t' => exact absurd ⟨t', ht⟩ hr
    rw [hnone]

/-- It is registered whichever of the others are not any more. -/
theorem IsCoherent.find?_beside (h : s.IsCoherent) {t : Table}
    (hg : t.generation = s.memory.nextGeneration) {gone : List Table}
    (hgone : ∀ other ∈ gone, other ∈ s.tables.values) :
    (eraseAll gone (s.tables.insert t.generation t)).find? s.memory.nextGeneration = some t := by
  have hfresh : s.memory.nextGeneration ∉ gone.map Table.generation := by
    intro hm
    obtain ⟨other, hother, he⟩ := List.mem_map.mp hm
    obtain ⟨generation, hfound⟩ := Generations.mem_values_iff.mp (hgone other hother)
    rw [(h.registered hfound).1] at he
    exact UInt64.lt_irrefl _ (he ▸ (h.spent_of_find? hfound).lt_next)
  rw [find?_eraseAll, if_neg hfresh, Generations.find?_insert, if_pos hg]

theorem IsCoherent.find?_replaced (h : s.IsCoherent) {t : Table} {disk : Disk}
    (hg : t.generation = s.memory.nextGeneration) (generation : UInt64) :
    (s.replaced t disk).tables.find? generation =
      if t.generation = generation then some t else none :=
  find?_replaced_of_fresh (fun ht => (h.registered ht).1) (hg ▸ h.next_not_registered) generation

/-! ### Every move keeps the order -/

theorem IsCoherent.finalIsLast (h : s.IsCoherent) :
    FinalIsLast s.memory.closed (s.backlog ++ s.memory.queue) :=
  fun _ _ _ hs hl => h.final hs hl

theorem IsCoherent.final_cons (h : s.IsCoherent) {task : FlushTask} {rest : List FlushTask}
    (hb : s.backlog = task :: rest) :
    FinalIsLast s.memory.closed (rest ++ s.memory.queue) := by
  have hall := h.finalIsLast
  rw [hb] at hall
  exact hall.tail

/-- The memory changes, the disk and the registry stay. -/
theorem IsCoherent.withMemory (h : s.IsCoherent) {memory : Memory} {backlog : List FlushTask}
    (ho : memory.IsOrdered)
    (hspent : ∀ generation, s.memory.IsSpent generation → memory.IsSpent generation)
    (ht : ({ s with memory, backlog } : Store).IsAligned ∨
      memory.closed = true ∧ backlog = [] ∧ memory.queue = [])
    (hf : ∀ {front task back}, backlog ++ memory.queue = front ++ task :: back →
      task.final = true → memory.closed = true ∧ back = []) :
    ({ s with memory, backlog } : Store).IsCoherent where
  ordered := ho
  fits := h.fits
  names := h.names
  spent := fun hs hp => hspent _ (h.spent hs hp)
  registered := h.registered
  tasks := ht
  final := hf

theorem IsCoherent.write (h : s.IsCoherent) (hc : s.memory.closed = false) (cell : Cell) :
    ({ s with memory := s.memory.writeOnly cell } : Store).IsCoherent :=
  h.withMemory (h.ordered.writeOnly hc cell)
    (fun _ hs => ⟨hs.lt_next, hs.ne_active, hs.not_pending⟩) h.tasks h.final

theorem IsCoherent.rotate (h : s.IsCoherent) (hc : s.memory.closed = false)
    (hr : s.HasRoomFor 1) (final : Bool) :
    ({ s with memory := s.memory.turn final } : Store).IsCoherent := by
  have hqueue : (s.memory.turn final).queue =
      s.memory.queue ++ [⟨s.memory.activeGeneration, s.memory.active, final⟩] := rfl
  have haligned : s.IsAligned := h.tasks.resolve_right (by simp [hc])
  refine h.withMemory (h.ordered.turn hr final) (fun _ hs => hs.turn hr final)
    (Or.inl (haligned.turn h.ordered final)) ?_
  have hall := h.finalIsLast
  rw [hc] at hall
  intro front task back hs hf
  rw [hqueue, ← List.append_assoc] at hs
  exact hall.concat _ front task back hs hf

theorem IsCoherent.receive (h : s.IsCoherent) {task : FlushTask} {rest : List FlushTask}
    (hq : s.memory.queue = task :: rest) :
    ({ s with
      memory := { s.memory with queue := rest }
      backlog := s.backlog ++ [task] } : Store).IsCoherent := by
  have hsame : s.backlog ++ s.memory.queue = s.backlog ++ [task] ++ rest := by
    rw [hq, List.append_assoc]
    rfl
  have hordered : ({ s.memory with queue := rest } : Memory).IsOrdered :=
    ⟨h.ordered.pending_lt, h.ordered.active_lt, h.ordered.buffers, h.ordered.closed⟩
  refine h.withMemory hordered
    (fun _ hs => ⟨hs.lt_next, hs.ne_active, hs.not_pending⟩) (Or.inl ?_) ?_
  · rcases h.tasks with ht | ⟨-, -, hnil⟩
    · exact ht.received hq
    · rw [hnil] at hq
      simp at hq
  · intro front last back hs hf
    exact h.final (hsame.trans hs) hf

theorem IsCoherent.acknowledge (h : s.IsCoherent) {task : FlushTask} {rest : List FlushTask}
    (hb : s.backlog = task :: rest) :
    ({ s with memory := s.memory.flushed task.generation, backlog := rest } : Store).IsCoherent :=
  h.withMemory (h.ordered.flushed _) (fun _ hs => hs.flushed _)
    (Or.inl ((h.aligned hb).flushed hb)) fun hs hf => h.final_cons hb _ _ _ hs hf

theorem IsCoherent.abandon (h : s.IsCoherent) {task : FlushTask} (hm : task ∈ s.backlog)
    (hf : task.final = true) : ({ s with backlog := [] } : Store).IsCoherent := by
  obtain ⟨front, back, hs⟩ := List.mem_iff_append.mp hm
  have hall : s.backlog ++ s.memory.queue = front ++ task :: (back ++ s.memory.queue) := by
    rw [hs, List.append_assoc, List.cons_append]
  have hlast := h.final hall hf
  obtain ⟨-, hqueue⟩ := List.append_eq_nil_iff.mp hlast.2
  refine h.withMemory h.ordered (fun _ hs => hs) (Or.inr ⟨hlast.1, rfl, hqueue⟩) ?_
  intro front last back hs hl
  rw [hqueue] at hs
  simp at hs

/-- The disk and the registry change as well. -/
theorem IsCoherent.litter (h : s.IsCoherent) {generation : UInt64} {disk : Disk}
    (hd : s.disk.SameOutside [TableName.temporary generation] disk) :
    ({ s with disk } : Store).IsCoherent where
  ordered := h.ordered
  fits := h.fits
  names := by
    intro name hs
    by_cases ht : name = TableName.temporary generation
    · rw [ht]
      exact TableName.isEntryName_temporary generation
    · rw [hd.find? name (by simpa using ht)] at hs
      exact h.names hs
  spent := by
    intro name g layout hs hp
    have ht := Disk.ne_temporary_of_parse? hp generation
    rw [hd.find? name (by simpa using ht)] at hs
    rw [Disk.pathOf_congr hd.path] at hp
    exact h.spent hs hp
  registered := by
    intro g t ht
    obtain ⟨hg, name, ho⟩ := h.registered ht
    exact ⟨hg, name, (hd.openTable_litter name).trans ho⟩
  tasks := h.tasks
  final := h.final

theorem IsCoherent.spend (h : s.IsCoherent) (hr : s.HasRoomFor 1) :
    ({ s with memory := s.memory.spend } : Store).IsCoherent :=
  h.withMemory (h.ordered.spend hr) (fun _ hs => hs.spend hr) h.tasks h.final

/-- No name opens under the generation of a task, which is still to be flushed. -/
theorem IsCoherent.fresh_of_task (h : s.IsCoherent) {task : FlushTask} {rest : List FlushTask}
    (hb : s.backlog = task :: rest) {name : String} {t : Table}
    (ho : s.disk.openTable name = .ok t) : t.generation ≠ task.generation := by
  intro hg
  have hnone := (h.spent_of_openTable ho).not_pending
  rw [hg, h.find?_task hb] at hnone
  simp at hnone

theorem IsCoherent.task_not_registered (h : s.IsCoherent) {task : FlushTask}
    {rest : List FlushTask} (hb : s.backlog = task :: rest) :
    s.tables.find? task.generation = none := by
  cases ht : s.tables.find? task.generation with
  | none => rfl
  | some t =>
    obtain ⟨hg, name, ho⟩ := h.registered ht
    exact absurd hg (h.fresh_of_task hb ho)

/-- No name opens under a generation that is still to be handed out. -/
theorem IsCoherent.fresh_of_next (h : s.IsCoherent) {name : String} {t : Table}
    (ho : s.disk.openTable name = .ok t) : t.generation ≠ s.memory.nextGeneration := by
  intro hg
  exact UInt64.lt_irrefl _ (hg ▸ (h.spent_of_openTable ho).lt_next)

/-- What opens when the table of the first task has been published: its name, and the names that
opened before. -/
theorem IsCoherent.openTable_published (h : s.IsCoherent) {task : FlushTask}
    {rest : List FlushTask} {t : Table} {disk : Disk} (hb : s.backlog = task :: rest)
    (hd : s.disk.Gains task.generation s.settings.layout t disk) {name : String} {other : Table} :
    (s.published task rest t disk).disk.openTable name = .ok other ↔
      name = TableName.file task.generation s.settings.layout ∧ other = t ∨
        s.disk.openTable name = .ok other :=
  hd.openTable_iff (h.fresh_of_task hb)

theorem IsCoherent.publish (h : s.IsCoherent) {task : FlushTask} {rest : List FlushTask}
    {t : Table} {disk : Disk} (hb : s.backlog = task :: rest)
    (hd : s.disk.Gains task.generation s.settings.layout t disk) :
    (s.published task rest t disk).IsCoherent where
  ordered := h.ordered.flushed _
  fits := h.fits
  names := by
    intro name hs
    rcases hd.isSome hs with rfl | hs
    · exact TableName.isEntryName_file _ _
    · exact h.names hs
  spent := by
    intro name g layout hs hp
    rw [disk_published, Disk.pathOf_congr hd.sameOutside.path] at hp
    rcases hd.isSome hs with rfl | hs
    · rw [Disk.parse?_file, Option.some.injEq, Prod.mk.injEq] at hp
      exact hp.1 ▸ h.ordered.isSpent_flushed (h.find?_task hb)
    · exact (h.spent hs hp).flushed _
  registered := by
    intro g other ho
    rw [tables_published, Generations.find?_insert] at ho
    by_cases hg : task.generation = g
    · rw [if_pos hg, Option.some.injEq] at ho
      exact ⟨ho ▸ hd.generation_eq.trans hg, _,
        (h.openTable_published hb hd).mpr (Or.inl ⟨rfl, ho.symm⟩)⟩
    · rw [if_neg hg] at ho
      obtain ⟨hother, name, hname⟩ := h.registered ho
      exact ⟨hother, name, (h.openTable_published hb hd).mpr (Or.inr hname)⟩
  tasks := Or.inl ((h.aligned hb).flushed hb)
  final := fun hs hf => h.final_cons hb _ _ _ hs hf

/-- The file of a registered table has the name that it was opened under. -/
theorem IsCoherent.mem_fileNames (h : s.IsCoherent) {name : String} {t : Table}
    (ho : s.disk.openTable name = .ok t) (hfound : s.tables.find? t.generation = some t) :
    name ∈ s.tables.values.map Table.fileName := by
  rw [← Disk.fileName_of_openTable ho (h.names (Disk.isSome_of_openTable ho))]
  exact List.mem_map_of_mem (Generations.mem_values_iff.mpr ⟨_, hfound⟩)

/-- No registered table has the name of a table that is still to come. -/
theorem IsCoherent.file_next_not_mem (h : s.IsCoherent) (layout : Layout) :
    TableName.file s.memory.nextGeneration layout ∉ s.tables.values.map Table.fileName := by
  intro hm
  obtain ⟨input, hinput, hname⟩ := List.mem_map.mp hm
  obtain ⟨generation, hfound⟩ := Generations.mem_values_iff.mp hinput
  have ho := h.openTable_fileName hfound
  obtain ⟨-, found, hp⟩ := Disk.of_openTable_eq_ok ho
  rw [hname, Disk.parse?_file, Option.some.injEq, Prod.mk.injEq] at hp
  exact h.fresh_of_next ho hp.1.symm

/-- What opens when one table has taken the place of all others: the new name, and the names that
opened before and were not registered. -/
theorem IsCoherent.openTable_replaced (h : s.IsCoherent) {t : Table} {disk : Disk}
    (hd : s.disk.Gains s.memory.nextGeneration s.settings.layout t disk) {name : String}
    {other : Table} :
    (s.replaced t disk).disk.openTable name = .ok other ↔
      name = TableName.file s.memory.nextGeneration s.settings.layout ∧ other = t ∨
      s.disk.openTable name = .ok other ∧ s.tables.find? other.generation ≠ some other := by
  rw [disk_replaced, Disk.openTable_removeFiles_iff, hd.openTable_iff h.fresh_of_next]
  constructor
  · rintro ⟨hm, hnew | ho⟩
    · exact Or.inl hnew
    · exact Or.inr ⟨ho, fun hfound => hm (h.mem_fileNames ho hfound)⟩
  · rintro (⟨rfl, rfl⟩ | ⟨ho, hnot⟩)
    · exact ⟨h.file_next_not_mem _, Or.inl ⟨rfl, rfl⟩⟩
    · refine ⟨fun hm => ?_, Or.inr ho⟩
      obtain ⟨input, hinput, rfl⟩ := List.mem_map.mp hm
      obtain ⟨generation, hfound⟩ := Generations.mem_values_iff.mp hinput
      rw [h.openTable_fileName hfound, Except.ok.injEq] at ho
      rw [← ho, (h.registered hfound).1] at hnot
      exact hnot hfound

theorem IsCoherent.replace (h : s.IsCoherent) (hr : s.HasRoomFor 1) {t : Table} {disk : Disk}
    (hd : s.disk.Gains s.memory.nextGeneration s.settings.layout t disk) :
    (s.replaced t disk).IsCoherent where
  ordered := h.ordered.spend hr
  fits := h.fits
  names := by
    intro name hs
    rcases hd.isSome (Disk.isSome_of_removeFiles hs) with rfl | hs
    · exact TableName.isEntryName_file _ _
    · exact h.names hs
  spent := by
    intro name g layout hs hp
    rw [disk_replaced, Disk.pathOf_congr (Disk.removeFiles_sameOutside _ _).path,
      Disk.pathOf_congr hd.sameOutside.path] at hp
    rcases hd.isSome (Disk.isSome_of_removeFiles hs) with rfl | hs
    · rw [Disk.parse?_file, Option.some.injEq, Prod.mk.injEq] at hp
      exact hp.1 ▸ h.ordered.isSpent_spend hr
    · exact (h.spent hs hp).spend hr
  registered := by
    intro g other ho
    rw [h.find?_replaced hd.generation_eq] at ho
    by_cases hg : t.generation = g
    · rw [if_pos hg, Option.some.injEq] at ho
      exact ⟨ho ▸ hg, _, (h.openTable_replaced hd).mpr (Or.inl ⟨rfl, ho.symm⟩)⟩
    · rw [if_neg hg] at ho
      simp at ho
  tasks := h.tasks
  final := h.final

theorem Move.coherent {s s' : Store} {cells : List Cell} (h : s.IsCoherent)
    (hm : Move s cells s') : s'.IsCoherent := by
  cases hm with
  | write cell hc _ => exact h.write hc cell
  | rotate final hc hr => exact h.rotate hc hr final
  | receive hq => exact h.receive hq
  | acknowledge hb _ => exact h.acknowledge hb
  | publish hb hd _ => exact h.publish hb hd
  | litter hd => exact h.litter hd
  | spend hr => exact h.spend hr
  | replace hr _ _ hd _ => exact h.replace hr hd
  | abandon hm hf => exact h.abandon hm hf

theorem Moves.coherent {start s : Store} {writes : List Cell} (h : start.IsCoherent)
    (hm : Moves start writes s) : s.IsCoherent := by
  induction hm with
  | refl => exact h
  | move _ hm ih => exact hm.coherent ih

/-! ### Opening starts in order -/

end Store

/-- A directory that a store can be opened on: its names are proper ones, and no table's name is
so great that the generations after it run out. -/
structure Disk.IsUsable (disk : Disk) : Prop where
  names : ∀ {name}, (disk.find? name).isSome → Text.Path.IsEntryName name
  room : ∀ {name generation layout}, (disk.find? name).isSome →
    TableName.parse? (disk.pathOf name) = some (generation, layout) →
    generation.toNat + 2 < UInt64.size

/-- The disk of an empty directory. -/
def Disk.ofEmpty (path : String) : Disk := { path, directory := some Directory.empty }

@[simp] theorem Disk.find?_ofEmpty (path name : String) : (ofEmpty path).find? name = none := rfl

theorem Disk.isUsable_ofEmpty (path : String) : (ofEmpty path).IsUsable where
  names := fun hs => by simp at hs
  room := fun hs => by simp at hs

namespace Store

variable {s : Store}

/-- A store opens on an empty directory. -/
theorem exists_load_ofEmpty {settings : Settings} (hv : settings.validate = .ok ()) :
    ∃ s, load settings (.ofEmpty "data") = .ok s :=
  exists_load hv (by decide) (Disk.isUsable_ofEmpty "data").room

theorem IsCoherent.isUsable (h : s.IsCoherent) (hr : s.HasRoomFor 1) : s.disk.IsUsable where
  names := h.names
  room := by
    intro name generation layout hs hp
    have hlt := UInt64.lt_iff_toNat_lt.mp (h.spent hs hp).lt_next
    unfold HasRoomFor at hr
    omega

/-- The path of a directory that was opened stays one that can be opened. -/
theorem pathFault?_of_moves {settings : Settings} {disk : Disk} {start : Store}
    {writes : List Cell} (hl : load settings disk = .ok start) (hm : Moves start writes s) :
    s.disk.pathFault? = none :=
  (pathFault?_congr (hm.path_eq.trans (opened_of_load hl).path)).trans (pathFault?_of_load hl)

theorem Opened.isSome {settings : Settings} {disk : Disk} (h : Opened settings disk s)
    {name : String} (hs : (s.disk.find? name).isSome) : (disk.find? name).isSome := by
  rcases h.find? name with he | ⟨-, he⟩
  · exact he ▸ hs
  · simp [he] at hs

/-- The memory of a store that has just been opened is empty; what names a file comes before its
generation, and that is not the last one. -/
theorem Opened.memory_eq_empty {settings : Settings} {disk : Disk} (h : Opened settings disk s) :
    ∃ active, s.memory =
        Memory.empty settings.flushThreshold settings.filterBits active (active + 1) ∧
      0 < active ∧ active.toNat + 1 < UInt64.size ∧
      ∀ {name generation layout}, (disk.find? name).isSome →
        TableName.parse? (disk.pathOf name) = some (generation, layout) → generation < active := by
  obtain ⟨greatest, hmemory, hroom, hle, -⟩ := h.memory
  have hlt : greatest < greatest + 1 := Memory.lt_next_of_room (by omega)
  have hactive : (greatest + 1).toNat = greatest.toNat + 1 := Memory.toNat_next_of_room (by omega)
  exact ⟨greatest + 1, hmemory, UInt64.lt_of_le_of_lt UInt64.zero_le hlt, by omega,
    fun hs hp => UInt64.lt_of_le_of_lt (hle hs hp) hlt⟩

/-- A store that has just been opened is in order. -/
theorem Opened.coherent {settings : Settings} {disk : Disk} (h : Opened settings disk s)
    (hd : disk.IsUsable) (hf : Draft.FilterFits settings.layout settings.filterBits) :
    s.IsCoherent ∧ s.HasRoomFor 0 := by
  obtain ⟨active, hmemory, -, hroom, hlt⟩ := h.memory_eq_empty
  refine ⟨⟨?_, ?_, fun hs => hd.names (h.isSome hs), ?_, ?_, Or.inl ?_, ?_⟩, ?_⟩
  · rw [hmemory]
    exact Memory.isOrdered_empty _ _ hroom
  · rw [FitsFilter, h.settings_eq]
    exact hf
  · intro name generation layout hs hp
    rw [Disk.pathOf_congr h.path] at hp
    rw [hmemory]
    exact Memory.isSpent_empty _ _ hroom (hlt (h.isSome hs) hp)
  · intro generation t ht
    obtain ⟨hg, name, ho⟩ := h.registered ht
    exact ⟨hg, name, (h.openTable name).trans ho⟩
  · rw [IsAligned, hmemory, h.backlog]
    rfl
  · intro front task back hs
    rw [hmemory, h.backlog] at hs
    simp [Memory.empty] at hs
  · rw [HasRoomFor, hmemory]
    exact (active + 1).toNat_lt_size

end Store

end TableStore

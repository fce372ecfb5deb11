import TableStore.Proofs.Store.Pipeline

/-! Flush attempts one after another, whatever the disk refuses. The tasks are tried in their order:
one that is done has registered a table of its cells, or none if it had no cells, and one that fails
has changed the disk only and comes first again in the next pass. So the tables are registered in
the order of their generations, each once, and what is not done stays pending. Behind the final task
the worker ends well exactly when one of its passes empties the backlog, and otherwise with the
fault of the last one. A number of filter words that does not fit its field spoils the filter of a
table but not its rows, so only looking up needs the bound on it. -/

namespace TableStore

/-- The cells that a table was built of are its rows when it opens. -/
theorem Draft.cellsFrom_of_build {disk disk' : Disk} {generation : UInt64} {layout : Layout}
    {filterBits : Nat} {cells : List Cell} {summary : Summary} {t : Table}
    (hb : build disk generation layout filterBits (cells.map .ok) = (.ok summary, disk'))
    (ho : disk'.openTable (TableName.file generation layout) = .ok t) :
    t.cellsFrom 0 = cells.map .ok := by
  obtain ⟨d, hd, hp⟩ := exists_published (fun _ hd => (addAll_empty_eq_ok hd).1.generation) hb
  obtain ⟨hform, hholds⟩ := addAll_empty_eq_ok hd
  exact hp.cellsFrom hform hholds (fileName_of_sameForm hform ▸ ho)

namespace Store

variable {s s' start : Store} {task : FlushTask} {rest : List FlushTask} {fault : Fault} {t : Table}
  {log more : List (FlushTask × Option Table)} {outcome : Option Fault}

/-! ### One attempt -/

/-- A table made for a task: it has its generation and its cells, and a filter that fits finds them
all. -/
structure IsMadeFor (s : Store) (task : FlushTask) (t : Table) : Prop where
  generation : t.generation = task.generation
  rows : t.cellsFrom 0 = task.buffer.cells.map .ok
  holds : s.FitsFilter → t.Holds task.buffer.cells

/-- The table of a task cannot be built, or what was built does not open. -/
def Refuses (s : Store) (task : FlushTask) (fault : Fault) (disk : Disk) : Prop :=
  Draft.build s.disk task.generation s.settings.layout s.settings.filterBits
      (task.buffer.cells.map .ok) = (.error fault, disk) ∨
    disk.openTable (TableName.file task.generation s.settings.layout) = .error fault ∧
      ∃ summary, Draft.build s.disk task.generation s.settings.layout s.settings.filterBits
        (task.buffer.cells.map .ok) = (.ok summary, disk)

/-- An attempt at a task and what comes of it. An empty one is acknowledged without a file; for
another a table is published, registered and then acknowledged, or the attempt fails because this
cannot be done, and changes nothing but the disk. -/
inductive Attempt (s : Store) (task : FlushTask) : Option Fault → Store → Prop
  | empty : task.buffer.cells = [] → Attempt s task none (s.acknowledge task.generation)
  | table {t : Table} {disk : Disk} : task.buffer.cells ≠ [] →
    disk.openTable (TableName.file task.generation s.settings.layout) = .ok t →
    s.IsMadeFor task t → Attempt s task none
      ((({ s with disk } : Store).register task.generation t).acknowledge task.generation)
  | failed {fault : Fault} {disk : Disk} : task.buffer.cells ≠ [] → s.Refuses task fault disk →
    Attempt s task (some fault) { s with disk }

theorem attempt_flushTable (s : Store) (task : FlushTask) :
    Attempt s task (s.flushTable task).1 (s.flushTable task).2 := by
  unfold flushTable
  by_cases he : task.buffer.isEmpty = true
  · rw [if_pos he]
    exact .empty (by simpa [Buffer.isEmpty] using he)
  · have hne : task.buffer.cells ≠ [] := by simpa [Buffer.isEmpty] using he
    rw [if_neg he]
    rcases hb : Draft.build s.disk task.generation s.settings.layout s.settings.filterBits
      (task.buffer.cells.map .ok) with ⟨fault | summary, disk⟩
    · exact .failed hne (Or.inl hb)
    · dsimp only
      cases ho : disk.openTable (TableName.file task.generation s.settings.layout) with
      | error fault => exact .failed hne (Or.inr ⟨ho, summary, hb⟩)
      | ok t =>
        obtain ⟨-, found, hp⟩ := Disk.of_openTable_eq_ok ho
        rw [Disk.parse?_file, Option.some.injEq, Prod.mk.injEq] at hp
        refine .table hne ho ⟨hp.1.symm, Draft.cellsFrom_of_build hb ho, fun hfits => ?_⟩
        obtain ⟨found, hgains, hholds⟩ := gains_of_build hb hfits
        exact hgains.eq_of_openTable ho ▸ hholds

/-! ### Attempts one after another -/

/-- The table that a task which is done has registered; none for an empty one. -/
def registeredFor (s : Store) (task : FlushTask) : Option Table :=
  if task.buffer.isEmpty then none else s.tables.find? task.generation

/-- Attempts at the first task of the backlog, one after another, and the tasks done with the tables
registered for them. In between tasks are received, the tables are compacted, be it with success or
not, and the disk changes in any way. -/
inductive Flushes (start : Store) : List (FlushTask × Option Table) → Store → Prop
  | refl : Flushes start [] start
  | receive {log : List (FlushTask × Option Table)} {s : Store} {task : FlushTask}
    {rest : List FlushTask} :
    Flushes start log s → s.memory.queue = task :: rest → Flushes start log (s.taken task rest)
  | flush {log : List (FlushTask × Option Table)} {s s' : Store} {task : FlushTask}
    {rest : List FlushTask} :
    Flushes start log s → s.backlog = task :: rest → s.flushTable task = (none, s') →
    Flushes start (log ++ [(task, s'.registeredFor task)]) { s' with backlog := rest }
  | fail {log : List (FlushTask × Option Table)} {s s' : Store} {task : FlushTask}
    {rest : List FlushTask} {fault : Fault} :
    Flushes start log s → s.backlog = task :: rest → s.flushTable task = (some fault, s') →
    Flushes start log s'
  | compact {log : List (FlushTask × Option Table)} {s : Store} :
    Flushes start log s → Flushes start log s.compact.2
  | disturb {log : List (FlushTask × Option Table)} {s : Store} (disk : Disk) :
    Flushes start log s → Flushes start log { s with disk }

theorem Flushes.trans {a b c : Store} (h : Flushes a log b) (h' : Flushes b more c) :
    Flushes a (log ++ more) c := by
  induction h' with
  | refl => simpa using h
  | receive _ hq ih => exact ih.receive hq
  | flush _ hb hf ih => exact List.append_assoc _ _ _ ▸ ih.flush hb hf
  | fail _ hb hf ih => exact ih.fail hb hf
  | compact _ ih => exact ih.compact
  | disturb disk _ ih => exact ih.disturb disk

/-- What attempts have done and what they leave: the tasks done come before those that are left,
which are still pending, and each of them has the table registered that was made for it. -/
structure FlushedInOrder (start : Store) (log : List (FlushTask × Option Table)) (s : Store) :
    Prop where
  settings : s.settings = start.settings
  queue : s.memory.queue <:+ start.memory.queue
  tasks : log.map Prod.fst ++ (s.backlog ++ s.memory.queue) = start.backlog ++ start.memory.queue
  owes : s.Owes (s.backlog ++ s.memory.queue)
  registered : ∀ entry ∈ log, entry.1.buffer.cells = [] ∧ entry.2 = none ∨
    ∃ t, entry.1.buffer.cells ≠ [] ∧ entry.2 = some t ∧ start.IsMadeFor entry.1 t

/-- Changes to the disk, to the registry and to the next generation matter to no task. -/
theorem FlushedInOrder.spend (h : start.FlushedInOrder log s) (disk : Disk)
    (tables : Generations Table) (nextGeneration : UInt64) :
    start.FlushedInOrder log
      { s with disk, tables, memory := { s.memory with nextGeneration } } :=
  ⟨h.settings, h.queue, h.tasks,
    ⟨h.owes.pending, h.owes.ascending, h.owes.final, h.owes.kept⟩, h.registered⟩

theorem FlushedInOrder.receive (h : start.FlushedInOrder log s)
    (hq : s.memory.queue = task :: rest) : start.FlushedInOrder log (s.taken task rest) := by
  have hsame : (s.taken task rest).backlog ++ (s.taken task rest).memory.queue =
      s.backlog ++ s.memory.queue := by
    rw [hq]
    exact List.append_assoc _ _ _
  refine ⟨h.settings, ?_, ?_, ?_, h.registered⟩
  · exact (List.suffix_cons task rest).trans (hq ▸ h.queue)
  · rw [hsame]
    exact h.tasks
  · rw [hsame]
    exact h.owes.received hq

/-- A task that is done leaves the backlog with its table registered. -/
theorem FlushedInOrder.flush (h : start.FlushedInOrder log s) (hb : s.backlog = task :: rest)
    (hf : s.flushTable task = (none, s')) :
    start.FlushedInOrder (log ++ [(task, s'.registeredFor task)]) { s' with backlog := rest } := by
  have htasks : (log ++ [(task, s'.registeredFor task)]).map Prod.fst ++
      (rest ++ s.memory.queue) = start.backlog ++ start.memory.queue := by
    rw [← h.tasks, hb]
    simp
  have hattempt := attempt_flushTable s task
  rw [hf] at hattempt
  generalize hs : s'.registeredFor task = registered at htasks ⊢
  cases hattempt with
  | empty he =>
    have hnone : registered = none := by
      rw [← hs, registeredFor, if_pos (by simpa [Buffer.isEmpty] using he)]
    refine ⟨h.settings, h.queue, htasks, h.owes.flushed hb s.disk s.tables, fun entry hm => ?_⟩
    rcases List.mem_append.mp hm with hm | hm
    · exact h.registered entry hm
    · rw [List.mem_singleton.mp hm]
      exact Or.inl ⟨he, hnone⟩
  | @table t disk hne _ ht =>
    have hsome : registered = some t := by
      rw [← hs, registeredFor, if_neg (by simpa [Buffer.isEmpty] using hne)]
      exact (Generations.find?_insert _ _ _ _).trans (if_pos rfl)
    refine ⟨h.settings, h.queue, htasks,
      h.owes.flushed hb disk (s.tables.insert task.generation t), fun entry hm => ?_⟩
    rcases List.mem_append.mp hm with hm | hm
    · exact h.registered entry hm
    · rw [List.mem_singleton.mp hm]
      refine Or.inr ⟨t, hne, hsome, ht.generation, ht.rows, fun hfits => ht.holds ?_⟩
      rw [FitsFilter, h.settings]
      exact hfits

/-- The tasks done ascend, so none of them is done twice. -/
theorem FlushedInOrder.ascending (h : start.FlushedInOrder log s)
    (ho : start.Owes (start.backlog ++ start.memory.queue)) :
    (log.map Prod.fst).Pairwise fun a b => a.generation < b.generation := by
  have hasc := ho.ascending
  rw [← h.tasks, List.pairwise_append] at hasc
  exact hasc.1

/-! ### Passes over the backlog -/

end Store

end TableStore

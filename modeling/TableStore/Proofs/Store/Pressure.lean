import Mathlib.Data.List.Perm.Subperm
import TableStore.Proofs.Store.Closing

/-! How much can be pending. A client whose rotation finds the queue full waits for room in it, and
the flush worker receives one task between two passes over its backlog; so as long as no attempt has
failed since the backlog was last empty, no more tables are pending than the queue holds and two
more. Behind a failed attempt the worker goes on receiving, though, and each such attempt may leave
one more task in the backlog: where flushes keep failing, any number of tables becomes pending. -/

namespace TableStore

/-- What the flush worker does: it waits at the queue, it passes over its backlog, or it has given
its backlog up. -/
inductive Stage
  | waiting
  | draining
  | ended
  deriving DecidableEq

/-- A store with its flush worker, and the attempts that have failed since the backlog was last
empty. -/
structure Running where
  store : Store
  stage : Stage
  failures : Nat

namespace Running

/-- No rotation of the client is waiting for room in the queue. -/
def IsFree (r : Running) : Prop :=
  r.store.memory.queue.length ≤ r.store.settings.queueCapacity

/-- One step of the client, of the worker, of a compaction, or of something that changes the disk
from outside. The client acts when it is free, and a task that the queue has no room for stays
behind those that it holds. -/
inductive Step (r : Running) : Running → Prop
  | write {cell : Cell} {store : Store} : r.IsFree → r.store.write cell = .ok store →
    Step r { r with store }
  | rotate {generation : Option UInt64} {memory : Memory} : r.IsFree →
    r.store.memory.forceRotate = .ok (generation, memory) →
    Step r { r with store := { r.store with memory } }
  | close {memory : Memory} : r.IsFree → r.store.memory.close = .ok memory →
    Step r { r with store := { r.store with memory } }
  | receive {task : FlushTask} {rest : List FlushTask} : r.stage = .waiting →
    r.store.memory.queue = task :: rest →
    Step r { r with
      stage := .draining
      store := { r.store with
        memory := { r.store.memory with queue := rest }
        backlog := r.store.backlog ++ [task] } }
  | retry : r.stage = .waiting → r.store.backlog ≠ [] → Step r { r with stage := .draining }
  | flush {task : FlushTask} {rest : List FlushTask} {store : Store} : r.stage = .draining →
    r.store.backlog = task :: rest → r.store.flushTable task = (none, store) →
    Step r { r with store := { store with backlog := rest } }
  | fail {task : FlushTask} {rest : List FlushTask} {store : Store} {fault : Fault} :
    r.stage = .draining → r.store.backlog = task :: rest →
    r.store.flushTable task = (some fault, store) →
    Step r { store, stage := .waiting, failures := r.failures + 1 }
  | drained : r.stage = .draining → r.store.backlog = [] →
    Step r { r with stage := .waiting, failures := 0 }
  | abandon {task : FlushTask} : r.stage = .waiting → task ∈ r.store.backlog → task.final = true →
    Step r { r with stage := .ended, store := { r.store with backlog := [] } }
  | compact : Step r { r with store := r.store.compact.2 }
  | disturb (disk : Disk) : Step r { r with store := { r.store with disk } }

inductive Run (start : Running) : Running → Prop
  | refl : Run start start
  | step {r r' : Running} : Run start r → Step r r' → Run start r'

theorem Run.trans {a b c : Running} (h : Run a b) (h' : Run b c) : Run a c := by
  induction h' with
  | refl => exact h
  | step _ hs ih => exact ih.step hs

/-- A store that has just been opened. -/
def opened (store : Store) : Running := ⟨store, .waiting, 0⟩

/-! ### What bounds the pending tables -/

/-- The tasks of the queue and those of the backlog are bounded, and while the worker runs every
pending table has a task. -/
structure IsBounded (r : Running) : Prop where
  queue : r.store.memory.queue.length ≤ r.store.settings.queueCapacity + 1
  backlog : r.store.backlog.length ≤ r.failures + if r.stage = .draining then 1 else 0
  tasks : r.stage ≠ .ended → ∀ generation ∈ r.store.memory.pending.keys,
    generation ∈ (r.store.backlog ++ r.store.memory.queue).map FlushTask.generation
  final : ∀ task ∈ r.store.backlog ++ r.store.memory.queue, task.final = true →
    r.store.memory.closed = true
  ended : r.stage = .ended → r.store.memory.closed = true ∧
    r.store.memory.pending.size ≤ r.store.settings.queueCapacity + 2 + r.failures

variable {r r' : Running}

/-- Every pending table has a task of its own. -/
theorem IsBounded.size_le (h : r.IsBounded) (hs : r.stage ≠ .ended) :
    r.store.memory.pending.size ≤ r.store.backlog.length + r.store.memory.queue.length := by
  have hnodup : r.store.memory.pending.keys.Nodup :=
    nodup_of_pairwise (fun g => UInt64.lt_irrefl g)
      (List.pairwise_map.mpr r.store.memory.pending.ascending)
  have hle := (List.subperm_of_subset hnodup (h.tasks hs)).length_le
  rw [List.length_map, List.length_append] at hle
  have hkeys : r.store.memory.pending.keys.length = r.store.memory.pending.size := List.length_map _
  omega

theorem IsBounded.pending_size_le (h : r.IsBounded) : r.store.memory.pending.size ≤
    r.store.settings.queueCapacity + 2 + r.failures := by
  by_cases hs : r.stage = .ended
  · exact (h.ended hs).2
  · have hsize := h.size_le hs
    have hqueue := h.queue
    have hbacklog := h.backlog
    split at hbacklog <;> omega

theorem isBounded_opened {settings : Settings} {disk : Disk} {store : Store}
    (hl : Store.load settings disk = .ok store) : (opened store).IsBounded := by
  have ho := Store.opened_of_load hl
  obtain ⟨greatest, hmemory, -⟩ := ho.memory
  have hqueue : store.memory.queue = [] := by rw [hmemory]; rfl
  have hpending : store.memory.pending.keys = [] := by rw [hmemory]; rfl
  refine ⟨?_, ?_, fun _ g hg => ?_, fun task hm => ?_, fun hs => by simp [opened] at hs⟩
  · simp [opened, hqueue]
  · simp [opened, ho.backlog]
  · simp [opened, hpending] at hg
  · simp [opened, ho.backlog, hqueue] at hm

/-! ### Every step keeps the bounds -/

theorem IsBounded.turn (h : r.IsBounded) (hf : r.IsFree) (hc : r.store.memory.closed = false)
    (final : Bool) :
    IsBounded { r with store := { r.store with memory := r.store.memory.turn final } } := by
  have hqueue : (r.store.memory.turn final).queue = r.store.memory.queue ++
      [⟨r.store.memory.activeGeneration, r.store.memory.active, final⟩] := rfl
  refine ⟨?_, h.backlog, fun hs g hg => ?_, fun task hm hfinal => ?_, fun hs => ?_⟩
  · show (r.store.memory.turn final).queue.length ≤ _
    rw [hqueue, List.length_append]
    exact Nat.succ_le_succ hf
  · show g ∈ (r.store.backlog ++ (r.store.memory.turn final).queue).map _
    rw [hqueue, ← List.append_assoc, List.map_append]
    obtain ⟨b, hb⟩ := Generations.mem_keys_iff.mp hg
    rw [Memory.find?_turn] at hb
    by_cases hg' : r.store.memory.activeGeneration = g
    · exact List.mem_append_right _ (List.mem_singleton.mpr hg'.symm)
    · rw [if_neg hg'] at hb
      exact List.mem_append_left _ (h.tasks hs g (Generations.mem_keys_iff.mpr ⟨b, hb⟩))
  · change task ∈ r.store.backlog ++ (r.store.memory.turn final).queue at hm
    rw [hqueue, ← List.append_assoc] at hm
    rcases List.mem_append.mp hm with hm | hm
    · have hclosed := h.final task hm hfinal
      simp [hc] at hclosed
    · rw [List.mem_singleton.mp hm] at hfinal
      exact hfinal
  · have hclosed := (h.ended hs).1
    simp [hc] at hclosed

theorem IsBounded.write (h : r.IsBounded) (hf : r.IsFree) {cell : Cell} {store : Store}
    (hw : r.store.write cell = .ok store) : IsBounded { r with store } := by
  obtain ⟨memory, hm, rfl⟩ := Store.exists_memory_of_write hw
  obtain ⟨hc, hm⟩ := Memory.write_cases hm
  have hwritten : IsBounded
      { r with store := { r.store with memory := r.store.memory.writeOnly cell } } :=
    ⟨h.queue, h.backlog, h.tasks, h.final, h.ended⟩
  rcases hm with rfl | ⟨-, rfl⟩
  · exact hwritten
  · exact hwritten.turn hf hc false

theorem IsBounded.receive (h : r.IsBounded) (hs : r.stage = .waiting) {task : FlushTask}
    {rest : List FlushTask} (hq : r.store.memory.queue = task :: rest) :
    IsBounded { r with
      stage := .draining
      store := { r.store with
        memory := { r.store.memory with queue := rest }
        backlog := r.store.backlog ++ [task] } } := by
  have hsame : r.store.backlog ++ [task] ++ rest = r.store.backlog ++ r.store.memory.queue := by
    rw [hq, List.append_assoc]
    rfl
  have hqueue := h.queue
  have hbacklog := h.backlog
  rw [hq, List.length_cons] at hqueue
  rw [if_neg (by simp [hs])] at hbacklog
  refine ⟨?_, ?_, fun _ => ?_, ?_, fun hs => by simp at hs⟩
  · exact Nat.le_of_succ_le hqueue
  · show (r.store.backlog ++ [task]).length ≤ r.failures + 1
    rw [List.length_append]
    exact Nat.succ_le_succ hbacklog
  · dsimp only
    rw [hsame]
    exact h.tasks (by simp [hs])
  · dsimp only
    rw [hsame]
    exact h.final

theorem IsBounded.flushed (h : r.IsBounded) (hs : r.stage = .draining) {task : FlushTask}
    {rest : List FlushTask} (hb : r.store.backlog = task :: rest) (disk : Disk)
    (tables : Generations Table) :
    IsBounded { r with
      store := { r.store with
        disk, tables, backlog := rest
        memory := r.store.memory.flushed task.generation } } := by
  have hbacklog := h.backlog
  rw [hb, List.length_cons] at hbacklog
  refine ⟨h.queue, Nat.le_of_succ_le hbacklog, fun _ g hg => ?_, fun other hm => ?_, fun he => ?_⟩
  · obtain ⟨b, hfound⟩ := Generations.mem_keys_iff.mp hg
    rw [Memory.find?_flushed] at hfound
    have hne : task.generation ≠ g := fun he => by simp [he] at hfound
    rw [if_neg hne] at hfound
    have hmem := h.tasks (by simp [hs]) g (Generations.mem_keys_iff.mpr ⟨b, hfound⟩)
    rw [hb, List.cons_append, List.map_cons] at hmem
    exact (List.mem_cons.mp hmem).resolve_left (Ne.symm hne)
  · refine h.final other ?_
    rw [hb, List.cons_append]
    exact List.mem_cons_of_mem _ hm
  · simp [hs] at he

theorem IsBounded.step (h : r.IsBounded) (hs : Step r r') : r'.IsBounded := by
  cases hs with
  | write hf hw => exact h.write hf hw
  | rotate hf hm =>
    obtain ⟨hc, ⟨-, -, rfl⟩ | ⟨-, -, -, rfl⟩⟩ := Memory.forceRotate_cases hm
    · exact h
    · exact h.turn hf hc false
  | close hf hm =>
    obtain ⟨-, rfl⟩ | ⟨hc, -, rfl⟩ := Memory.close_cases hm
    · exact h
    · exact h.turn hf hc true
  | receive hs hq => exact h.receive hs hq
  | retry hs =>
    have hbacklog := h.backlog
    rw [if_neg (by simp [hs])] at hbacklog
    exact ⟨h.queue, Nat.le_succ_of_le hbacklog, fun _ => h.tasks (by simp [hs]), h.final,
      fun he => by simp at he⟩
  | flush hs hb hf =>
    obtain ⟨disk, tables, rfl, -⟩ := Store.of_flushTable_eq_none hf
    exact h.flushed hs hb disk tables
  | fail hs hb hf =>
    have hbacklog := h.backlog
    rw [if_pos hs] at hbacklog
    obtain ⟨disk, rfl⟩ := Store.of_flushTable_eq_some hf
    exact ⟨h.queue, hbacklog, fun _ => h.tasks (by simp [hs]), h.final, fun he => by simp at he⟩
  | drained hs hb =>
    exact ⟨h.queue, by simp [hb], fun _ => h.tasks (by simp [hs]), h.final,
      fun he => by simp at he⟩
  | abandon hs hm hf =>
    exact ⟨h.queue, Nat.zero_le _, fun he => absurd rfl he,
      fun task ht => h.final task (List.mem_append_right _ ht),
      fun _ => ⟨h.final _ (List.mem_append_left _ hm) hf, h.pending_size_le⟩⟩
  | compact =>
    rcases Store.compact_registers r.store with ho | ⟨disk, tables, ho, -⟩ <;> rw [ho]
    · exact h
    · exact ⟨h.queue, h.backlog, h.tasks, h.final, h.ended⟩
  | disturb disk => exact ⟨h.queue, h.backlog, h.tasks, h.final, h.ended⟩

theorem Run.isBounded {start : Running} (h : start.IsBounded) (hr : Run start r) : r.IsBounded := by
  induction hr with
  | refl => exact h
  | step _ hs ih => exact ih.step hs

theorem Step.settings_eq (hs : Step r r') : r'.store.settings = r.store.settings := by
  cases hs with
  | write hf hw =>
    obtain ⟨memory, -, rfl⟩ := Store.exists_memory_of_write hw
    rfl
  | flush hs hb hf =>
    obtain ⟨disk, tables, rfl, -⟩ := Store.of_flushTable_eq_none hf
    rfl
  | fail hs hb hf =>
    obtain ⟨disk, rfl⟩ := Store.of_flushTable_eq_some hf
    rfl
  | compact =>
    rcases Store.compact_registers r.store with ho | ⟨disk, tables, ho, -⟩ <;> rw [ho]
  | rotate | close | receive | retry | drained | abandon | disturb => rfl

theorem Run.settings_eq {start : Running} (hr : Run start r) :
    r.store.settings = start.store.settings := by
  induction hr with
  | refl => rfl
  | step _ hs ih => exact hs.settings_eq.trans ih

/-- At most so many tables are pending as the queue holds, two more, and one for each attempt that
has failed since the backlog was last empty. -/
theorem Run.pending_le {settings : Settings} {disk : Disk} {start : Store}
    (hl : Store.load settings disk = .ok start) (hr : Run (opened start) r) :
    r.store.memory.pending.size ≤ settings.queueCapacity + 2 + r.failures := by
  have hsettings : r.store.settings = settings :=
    hr.settings_eq.trans (Store.opened_of_load hl).settings_eq
  exact hsettings ▸ (hr.isBounded (isBounded_opened hl)).pending_size_le

/-! ### Where flushes keep failing -/

/-- The first table cannot be written where a folder has the name of its temporary file. -/
theorem flushTable_obstructed {s : Store} {task : FlushTask} (hd : s.disk = Store.obstructed)
    (hg : task.generation = 1) (he : task.buffer.isEmpty = false) :
    ∃ fault, s.flushTable task = (some fault, s) := by
  have hrefused : ∃ fault, Store.obstructed.create (TableName.temporary 1) =
      (some fault, Store.obstructed) := by
    have hsome : (Store.obstructed.create (TableName.temporary 1)).1.isSome := by decide +kernel
    have hsame : (Store.obstructed.create (TableName.temporary 1)).2 = Store.obstructed := by
      decide +kernel
    obtain ⟨fault, hf⟩ := Option.isSome_iff_exists.mp hsome
    exact ⟨fault, Prod.ext hf hsame⟩
  obtain ⟨fault, hf⟩ := hrefused
  refine ⟨fault, ?_⟩
  rw [Store.flushTable, he, hg, Draft.build, Draft.publish, Draft.start, hd, hf, ← hd]
  rfl

/-- Tables are pending, the first of them in front of the obstruction, and the worker waits. -/
structure IsJammed (pending : Nat) (r : Running) : Prop where
  disk : r.store.disk = Store.obstructed
  stage : r.stage = .waiting
  threshold : r.store.memory.threshold = 0
  isOpen : r.store.memory.closed = false
  queue : r.store.memory.queue = []
  active : r.store.memory.active = Buffer.empty r.store.memory.filterBits
  ordered : r.store.memory.IsOrdered
  next : r.store.memory.nextGeneration.toNat = pending + 2
  size : r.store.memory.pending.size = pending
  first : pending = 0 ∧ r.store.backlog = [] ∧ r.store.memory.activeGeneration = 1 ∨
    ∃ task rest, r.store.backlog = task :: rest ∧ task.generation = 1 ∧
      task.buffer.isEmpty = false

/-- What the client writes over and over. -/
def jam : Cell := ⟨[97], .present 1 [98]⟩

/-- The task of the active table once it has been written to. -/
def jamTask (s : Store) : FlushTask :=
  ⟨s.memory.activeGeneration, s.memory.active.write jam, false⟩

/-- The store when one more write has rotated its active table and the task has been received. -/
def jammed (s : Store) : Store :=
  { s with
    memory := { (s.memory.writeOnly jam).turn false with queue := [] }
    backlog := s.backlog ++ [jamTask s] }

theorem IsJammed.write {pending : Nat} (h : r.IsJammed pending)
    (hroom : r.store.memory.nextGeneration.toNat + 1 < UInt64.size) : r.store.write jam =
    .ok { r.store with memory := (r.store.memory.writeOnly jam).turn false } := by
  have hsize : r.store.memory.threshold < (r.store.memory.active.write jam).size := by
    rw [h.threshold, h.active]
    exact Nat.two_pos
  have hturn : ({ r.store.memory with active := r.store.memory.active.write jam } :
      Memory).rotate false = .ok ((r.store.memory.writeOnly jam).turn false) := by
    have hopen : (r.store.memory.writeOnly jam).closed = false := h.isOpen
    show (r.store.memory.writeOnly jam).rotate false = _
    rw [Memory.rotate_of_room (m := r.store.memory.writeOnly jam) hroom, hopen]
    rfl
  rw [Store.write, Memory.write, if_neg (by simp [h.isOpen])]
  dsimp only
  rw [if_pos hsize, hturn]
  rfl

/-- The task that the worker tries first stays the one in front of the obstruction. -/
theorem IsJammed.first_jammed {pending : Nat} (h : r.IsJammed pending) :
    ∃ task rest, (jammed r.store).backlog = task :: rest ∧ task.generation = 1 ∧
      task.buffer.isEmpty = false := by
  rcases h.first with ⟨-, hb, hg⟩ | ⟨task, rest, hb, hg, he⟩
  · refine ⟨jamTask r.store, [], ?_, hg, ?_⟩
    · rw [jammed, hb, List.nil_append]
    · rw [jamTask, h.active]
      rfl
  · exact ⟨task, rest ++ [jamTask r.store], by rw [jammed, hb, List.cons_append], hg, he⟩

/-- One more write makes one more table pending: its task is received, and the attempt behind it
fails. -/
theorem IsJammed.step {pending : Nat} (h : r.IsJammed pending)
    (hn : pending + 3 < UInt64.size) : ∃ r', Run r r' ∧ r'.IsJammed (pending + 1) := by
  have hfree : r.IsFree := by
    rw [IsFree, h.queue]
    exact Nat.zero_le _
  have hqueue : ((r.store.memory.writeOnly jam).turn false).queue = [jamTask r.store] := by
    show r.store.memory.queue ++ [jamTask r.store] = [jamTask r.store]
    rw [h.queue, List.nil_append]
  have hroom : r.store.memory.nextGeneration.toNat + 1 < UInt64.size := by
    rw [h.next]
    exact hn
  have hwritten : (r.store.memory.writeOnly jam).IsOrdered := h.ordered.writeOnly h.isOpen jam
  have hordered := hwritten.turn hroom false
  obtain ⟨first, rest, hb, hg, he⟩ := h.first_jammed
  obtain ⟨fault, hf⟩ := flushTable_obstructed (s := jammed r.store) h.disk hg he
  refine ⟨⟨jammed r.store, .waiting, r.failures + 1⟩, ?_, ?_⟩
  · refine ((Run.refl.step (.write hfree (h.write hroom))).step (.receive h.stage hqueue)).step ?_
    exact .fail (r := ⟨jammed r.store, .draining, r.failures⟩) rfl hb hf
  · refine ⟨h.disk, rfl, h.threshold, rfl, rfl, rfl, ?_, ?_, ?_, Or.inr ⟨first, rest, hb, hg, he⟩⟩
    · exact ⟨hordered.pending_lt, hordered.active_lt, hordered.buffers, hordered.closed⟩
    · have hnext : (jammed r.store).memory.nextGeneration.toNat =
          r.store.memory.nextGeneration.toNat + 1 := Memory.toNat_next_of_room hroom
      rw [hnext, h.next]
    · show ((r.store.memory.writeOnly jam).turn false).pending.entries.length = _
      rw [Memory.entries_turn hwritten, List.length_append]
      exact congrArg (· + 1) h.size

theorem exists_isJammed {start : Running} (h : start.IsJammed 0) (pending : Nat)
    (hn : pending + 2 < UInt64.size) : ∃ r, Run start r ∧ r.IsJammed pending := by
  induction pending with
  | zero => exact ⟨start, .refl, h⟩
  | succ pending ih =>
    obtain ⟨r, hr, hj⟩ := ih (by omega)
    obtain ⟨r', hr', hj'⟩ := hj.step hn
    exact ⟨r', hr.trans hr', hj'⟩

theorem isJammed_opened {store : Store} (hdisk : store.disk = Store.obstructed)
    (hmemory : store.memory = .empty 0 64 1 2) (hbacklog : store.backlog = []) :
    (opened store).IsJammed 0 := by
  obtain ⟨settings, disk, memory, tables, backlog⟩ := store
  obtain rfl : memory = .empty 0 64 1 2 := hmemory
  exact ⟨hdisk, rfl, rfl, rfl, rfl, rfl, Memory.isOrdered_empty 0 64 (by decide), rfl, rfl,
    Or.inl ⟨rfl, hbacklog, rfl⟩⟩

/-- In the obstructed directory any number of tables becomes pending. -/
theorem pending_unbounded (pending : Nat) (hn : pending + 2 < UInt64.size) : ∃ start r,
    Store.load { layout := .plain, filterBits := 64, flushThreshold := 0 } Store.obstructed =
      .ok start ∧
    Run (opened start) r ∧ r.store.memory.pending.size = pending := by
  have hvalid : Settings.validate { layout := .plain, filterBits := 64, flushThreshold := 0 } =
    .ok () := rfl
  have hpath : Store.obstructed.pathFault? = none := by decide
  obtain ⟨start, hl⟩ := Store.exists_load hvalid hpath (by decide)
  obtain ⟨hdisk, hmemory⟩ : start.disk = Store.obstructed ∧ start.memory = .empty 0 64 1 2 := by
    cases hl
    exact ⟨by decide +kernel, rfl⟩
  have hjammed := isJammed_opened hdisk hmemory (Store.opened_of_load hl).backlog
  obtain ⟨r, hr, hj⟩ := exists_isJammed hjammed pending hn
  exact ⟨start, r, hl, hr, hj.size⟩

/-- With a queue for two, five tables are pending. -/
theorem pending_over_capacity : ∃ start r,
    Store.load { layout := .plain, filterBits := 64, flushThreshold := 0, queueCapacity := 2 }
      Store.obstructed = .ok start ∧
    Run (opened start) r ∧ r.store.settings.queueCapacity + 2 < r.store.memory.pending.size := by
  obtain ⟨start, r, hl, hr, hsize⟩ := pending_unbounded 5 (by decide)
  refine ⟨start, r, hl, hr, ?_⟩
  rw [hr.settings_eq, opened, (Store.opened_of_load hl).settings_eq, hsize]
  decide

/-- Five are there only behind a failed attempt. -/
theorem failed_of_five_pending : ∃ start r,
    Store.load { layout := .plain, filterBits := 64, flushThreshold := 0, queueCapacity := 2 }
      Store.obstructed = .ok start ∧
    Run (opened start) r ∧ r.store.memory.pending.size = 5 ∧ 0 < r.failures := by
  obtain ⟨start, r, hl, hr, hsize⟩ := pending_unbounded 5 (by decide)
  have hle : _ ≤ 2 + 2 + r.failures := hr.pending_le hl
  refine ⟨start, r, hl, hr, hsize, ?_⟩
  rw [hsize] at hle
  omega

end Running

end TableStore

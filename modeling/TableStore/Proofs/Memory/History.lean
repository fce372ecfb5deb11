import Mathlib.Data.List.Induction
import TableStore.Proofs.Memory.Cursors
import TableStore.Proofs.Store.Reading

/-! The whole history of a memory. Beside the memory itself a history records what its calls have
handed out and taken in: generations, tasks that entered and left the queue, tables not acknowledged
since their rotation, and writes. Whatever the calls and their order, the record adds up: no
generation is handed out twice, a table rotated stays as it was, and all tables ever rotated, laid
over one another with the active one on top, hold the last write of every key and nothing else. The
history ends when a generation is asked for and none is left. -/

namespace TableStore

/-- A call of a memory. -/
inductive Request
  | put (key data : Bytes) (stamp : Stamp)
  | delete (key : Bytes) (stamp : Stamp)
  | rotate
  | take
  | acknowledge (generation : UInt64)
  | reserve
  | close
  deriving DecidableEq

namespace Request

/-- The cells that a call writes. -/
def cells : Request → List Cell
  | put key data stamp => [⟨key, .present stamp data⟩]
  | delete key stamp => [⟨key, .tombstone stamp⟩]
  | _ => []

/-- The calls that a closed memory refuses. -/
def needsOpen : Request → Bool
  | put .. | delete .. | rotate => true
  | take | acknowledge _ | reserve | close => false

end Request

/-- The memory after a call. -/
def Memory.perform (m : Memory) : Request → Except Fault Memory
  | .put key data stamp => m.write ⟨key, .present stamp data⟩
  | .delete key stamp => m.write ⟨key, .tombstone stamp⟩
  | .rotate => m.forceRotate.map Prod.snd
  | .take => .ok m.take.2
  | .acknowledge generation => .ok (m.flushed generation)
  | .reserve => m.allocate.map Prod.snd
  | .close => m.close

/-- A memory and the record of its calls. -/
structure History where
  memory : Memory
  /-- The generations handed out, to tables and as reservations. -/
  handed : List UInt64
  /-- The tasks that have entered the queue. -/
  queued : List FlushTask
  /-- The tasks that have left it. -/
  taken : List FlushTask
  /-- The tasks whose tables have not been acknowledged since they were rotated. -/
  owed : List FlushTask
  /-- The writes acknowledged. -/
  writes : List Cell

namespace History

def start (threshold filterBits : Nat) (generation : UInt64) : Except Fault History := do
  return ⟨← Memory.startAt threshold filterBits generation, [generation], [], [], [], []⟩

/-- The tasks that a call has put behind those of the queue. -/
def entered (before after : Memory) : Request → List FlushTask
  | .take => []
  | _ => after.queue.drop before.queue.length

/-- A call, and what it adds to the record; one that is refused adds nothing, and one that overflows
is the end. -/
def call (h : History) (request : Request) : Except Fault History :=
  match h.memory.perform request with
  | .error .overflow => .error .overflow
  | .error _ => .ok h
  | .ok memory =>
    let entered := entered h.memory memory request
    .ok {
      memory
      handed := h.handed ++ entered.map (fun _ => memory.activeGeneration) ++
        if request = .reserve then [h.memory.nextGeneration] else []
      queued := h.queued ++ entered
      taken := h.taken ++ if request = .take then h.memory.take.1.toList else []
      owed := h.owed.filter (fun task => request ≠ .acknowledge task.generation) ++ entered
      writes := h.writes ++ request.cells }

def run (h : History) (requests : List Request) : Except Fault History := requests.foldlM call h

/-- The history of a new memory. -/
def ofCalls (threshold filterBits : Nat) (generation : UInt64) (requests : List Request) :
    Except Fault History := do
  (← start threshold filterBits generation).run requests

theorem run_concat (h : History) (requests : List Request) (request : Request) :
    h.run (requests ++ [request]) = h.run requests >>= (·.call request) := by
  rw [run, List.foldlM_append]
  simp only [List.foldlM_cons, List.foldlM_nil, bind_pure]
  rfl

end History

/-- What tables laid over one another hold for a key: what the last one that has it says. -/
def overlay : List (List Cell) → Bytes → Option Version
  | [], _ => none
  | table :: above, key => (overlay above key).or (lookup key table)

theorem overlay_concat (tables : List (List Cell)) (top : List Cell) (key : Bytes) :
    overlay (tables ++ [top]) key = (lookup key top).or (overlay tables key) := by
  induction tables with
  | nil => simp [overlay]
  | cons table above ih =>
    rw [List.cons_append, overlay, ih, overlay, Option.or_assoc]

/-- Tasks of which none is final while the memory is open, and exactly the last when it is closed. -/
def EndsClosed (closed : Bool) (tasks : List FlushTask) : Prop :=
  closed = false ∧ (∀ task ∈ tasks, task.final = false) ∨
    closed = true ∧ ∃ front last, tasks = front ++ [last] ∧ last.final = true ∧
      ∀ task ∈ front, task.final = false

/-- A task behind others while the memory is open closes it, if it is the final one. -/
theorem EndsClosed.concat {tasks : List FlushTask} (h : EndsClosed false tasks) (task : FlushTask) :
    EndsClosed task.final (tasks ++ [task]) := by
  have hopen : ∀ other ∈ tasks, other.final = false := by
    rcases h with ⟨-, hopen⟩ | ⟨hclosed, -⟩
    · exact hopen
    · simp at hclosed
  cases hf : task.final with
  | false =>
    exact Or.inl ⟨rfl, List.forall_mem_append.mpr ⟨hopen, List.forall_mem_singleton.mpr hf⟩⟩
  | true => exact Or.inr ⟨rfl, tasks, task, rfl, hf, hopen⟩

namespace Memory

variable {m : Memory}

/-! ### What a call does to the memory -/

/-- A closed memory refuses to write and to rotate. -/
theorem perform_of_closed (hc : m.closed = true) {request : Request}
    (hr : request.needsOpen = true) : m.perform request = .error .closed := by
  cases request with
  | put | delete => exact if_pos hc
  | rotate => rw [perform, forceRotate, if_pos hc]; rfl
  | take | acknowledge | reserve | close => simp [Request.needsOpen] at hr

/-- A call that fails was refused by a closed memory or found no generation left. -/
theorem perform_eq_error {request : Request} {fault : Fault}
    (h : m.perform request = .error fault) :
    fault = .closed ∧ m.closed = true ∧ request.needsOpen = true ∨
      fault = .overflow ∧ ¬ m.nextGeneration.toNat + 1 < UInt64.size := by
  cases request with
  | put | delete => exact (write_eq_error h).imp_left fun hc => ⟨hc.1, hc.2, rfl⟩
  | rotate =>
    exact (forceRotate_eq_error (map_eq_error.mp h)).imp_left fun hc => ⟨hc.1, hc.2, rfl⟩
  | take | acknowledge => simp [perform] at h
  | reserve =>
    have hfault : m.allocate = .error fault := map_eq_error.mp h
    by_cases hr : m.nextGeneration.toNat + 1 < UInt64.size
    · simp [allocate_of_room hr] at hfault
    · rw [allocate_of_last hr, Except.error.injEq] at hfault
      exact Or.inr ⟨hfault.symm, hr⟩
  | close => exact Or.inr (close_eq_error h)

theorem perform_reserve {m' : Memory} (h : m.perform .reserve = .ok m') :
    m.nextGeneration.toNat + 1 < UInt64.size ∧ m' = m.spend := by
  obtain ⟨found, hm, rfl⟩ := map_eq_ok.mp h
  by_cases hr : m.nextGeneration.toNat + 1 < UInt64.size
  · rw [allocate_of_room hr, Except.ok.injEq] at hm
    exact ⟨hr, hm ▸ rfl⟩
  · simp [allocate_of_last hr] at hm

theorem threshold_write {m' : Memory} {cell : Cell} (h : m.write cell = .ok m') :
    m'.threshold = m.threshold ∧ m'.active.size ≤ m.threshold := by
  unfold write at h
  split at h
  · simp at h
  · dsimp only at h
    split at h
    · obtain ⟨-, rfl⟩ := rotate_eq_ok.mp h
      exact ⟨rfl, Nat.zero_le _⟩
    · rename_i hs
      obtain rfl := Except.ok.inj h
      exact ⟨rfl, Nat.not_lt.mp hs⟩

/-- No call leaves more than the threshold in the active table. -/
theorem perform_small {m' : Memory} {request : Request} (h : m.perform request = .ok m')
    (hs : m.active.size ≤ m.threshold) :
    m'.threshold = m.threshold ∧ m'.active.size ≤ m.threshold := by
  cases request with
  | put | delete => exact threshold_write h
  | rotate =>
    obtain ⟨⟨generation, m'⟩, hm, rfl⟩ := map_eq_ok.mp h
    obtain ⟨-, ⟨-, -, rfl⟩ | ⟨-, -, -, rfl⟩⟩ := forceRotate_cases hm
    · exact ⟨rfl, hs⟩
    · exact ⟨rfl, Nat.zero_le _⟩
  | take | acknowledge =>
    obtain rfl := Except.ok.inj h
    exact ⟨rfl, hs⟩
  | reserve =>
    obtain ⟨-, rfl⟩ := perform_reserve h
    exact ⟨rfl, hs⟩
  | close =>
    obtain ⟨-, rfl⟩ | ⟨-, -, rfl⟩ := close_cases h
    · exact ⟨rfl, hs⟩
    · exact ⟨rfl, Nat.zero_le _⟩

theorem closed_perform {m' : Memory} {request : Request} (h : m.perform request = .ok m') :
    m'.closed = true ↔ m.closed = true ∨ request = .close := by
  cases request with
  | put | delete =>
    obtain ⟨hc, rfl | ⟨-, rfl⟩⟩ := write_cases h
    · simp [writeOnly]
    · simp [turn, hc]
  | rotate =>
    obtain ⟨⟨generation, m'⟩, hm, rfl⟩ := map_eq_ok.mp h
    obtain ⟨hc, ⟨-, -, rfl⟩ | ⟨-, -, -, rfl⟩⟩ := forceRotate_cases hm
    · simp
    · simp [turn, hc]
  | take | acknowledge =>
    obtain rfl := Except.ok.inj h
    simp [Memory.take, flushed]
  | reserve =>
    obtain ⟨-, rfl⟩ := perform_reserve h
    simp [spend]
  | close =>
    obtain ⟨hc, rfl⟩ | ⟨-, -, rfl⟩ := close_cases h
    · simp [hc]
    · simp [turn]

end Memory

namespace History

variable {h : History} {generation : UInt64}

/-! ### The record adds up -/

/-- What the record says of the memory at every moment. -/
structure AddsUp (generation : UInt64) (h : History) : Prop where
  ordered : h.memory.IsOrdered
  next : h.memory.nextGeneration.toNat = generation.toNat + h.handed.length
  ascending : h.handed.Pairwise (· < ·)
  below : ∀ g ∈ h.handed, g < h.memory.nextGeneration
  tasks : (h.queued.map FlushTask.generation ++ [h.memory.activeGeneration]).Sublist h.handed
  queue : h.queued = h.taken ++ h.memory.queue
  kept : ∀ task ∈ h.queued, h.memory.buffer? task.generation = some task.buffer
  owed : h.memory.pending.entries = h.owed.map fun task => (task.generation, task.buffer)
  laid : ∀ key, overlay (h.queued.map (·.buffer.cells) ++ [h.memory.active.cells]) key =
    lastWrite? key h.writes
  final : EndsClosed h.memory.closed h.queued

theorem start_eq_ok {threshold filterBits : Nat} :
    start threshold filterBits generation = .ok h ↔ generation.toNat + 1 < UInt64.size ∧
      h = ⟨.empty threshold filterBits generation (generation + 1), [generation], [], [], [], []⟩ := by
  by_cases hr : generation.toNat + 1 < UInt64.size
  · rw [start, Memory.startAt_of_room _ _ hr, ok_bind, pure_eq_ok, Except.ok.injEq, eq_comm,
      and_iff_right hr]
  · rw [start, Memory.startAt_of_last _ _ hr]
    exact iff_of_false nofun fun hand => hr hand.1

theorem addsUp_start {threshold filterBits : Nat}
    (hs : start threshold filterBits generation = .ok h) : h.AddsUp generation := by
  obtain ⟨hr, rfl⟩ := start_eq_ok.mp hs
  exact {
    ordered := Memory.isOrdered_empty _ _ hr
    next := Memory.toNat_next_of_room hr
    ascending := List.pairwise_singleton _ _
    below := by
      intro g hg
      rw [List.mem_singleton.mp hg]
      exact Memory.lt_next_of_room hr
    tasks := List.Sublist.refl _
    queue := rfl
    kept := fun task hm => absurd hm List.not_mem_nil
    owed := rfl
    laid := fun key => rfl
    final := Or.inl ⟨rfl, fun task hm => absurd hm List.not_mem_nil⟩ }

/-! ### The changes that calls consist of -/

/-- A cell is written and acknowledged. -/
def wrote (h : History) (cell : Cell) : History :=
  { h with memory := h.memory.writeOnly cell, writes := h.writes ++ [cell] }

/-- The task of the active table. -/
def task (h : History) (final : Bool) : FlushTask :=
  ⟨h.memory.activeGeneration, h.memory.active, final⟩

/-- The active table is rotated and the next generation handed to a new one. -/
def turned (h : History) (final : Bool) : History :=
  { h with
    memory := h.memory.turn final
    handed := h.handed ++ [h.memory.nextGeneration]
    queued := h.queued ++ [h.task final]
    owed := h.owed ++ [h.task final] }

/-- The next generation is handed out as a reservation. -/
def reserved (h : History) : History :=
  { h with memory := h.memory.spend, handed := h.handed ++ [h.memory.nextGeneration] }

/-- The first task leaves the queue. -/
def took (h : History) : History :=
  { h with memory := h.memory.take.2, taken := h.taken ++ h.memory.queue.head?.toList }

/-- A generation is acknowledged. -/
def acknowledged (h : History) (generation : UInt64) : History :=
  { h with
    memory := h.memory.flushed generation
    owed := h.owed.filter fun task => task.generation ≠ generation }

/-- The next generation is handed out behind all others. -/
theorem AddsUp.handed_concat (a : h.AddsUp generation)
    (hr : h.memory.nextGeneration.toNat + 1 < UInt64.size) :
    (h.memory.nextGeneration + 1).toNat =
        generation.toNat + (h.handed ++ [h.memory.nextGeneration]).length ∧
      (h.handed ++ [h.memory.nextGeneration]).Pairwise (· < ·) ∧
      ∀ g ∈ h.handed ++ [h.memory.nextGeneration], g < h.memory.nextGeneration + 1 := by
  have hlt := Memory.lt_next_of_room hr
  refine ⟨?_, ?_, fun g hg => ?_⟩
  · rw [Memory.toNat_next_of_room hr, a.next, List.length_append, List.length_singleton]
    omega
  · rw [List.pairwise_append]
    refine ⟨a.ascending, List.pairwise_singleton _ _, fun g hg next hn => ?_⟩
    rw [List.mem_singleton.mp hn]
    exact a.below g hg
  · rcases List.mem_append.mp hg with hg | hg
    · exact UInt64.lt_trans (a.below g hg) hlt
    · exact List.mem_singleton.mp hg ▸ hlt

theorem AddsUp.task_lt (a : h.AddsUp generation) {task : FlushTask} (hm : task ∈ h.queued) :
    task.generation < h.memory.activeGeneration := by
  have hasc := a.ascending.sublist a.tasks
  exact (List.pairwise_append.mp hasc).2.2 _ (List.mem_map_of_mem hm) _ List.mem_cons_self

theorem AddsUp.wrote (a : h.AddsUp generation) (hc : h.memory.closed = false) (cell : Cell) :
    (h.wrote cell).AddsUp generation where
  ordered := a.ordered.writeOnly hc cell
  next := a.next
  ascending := a.ascending
  below := a.below
  tasks := a.tasks
  queue := a.queue
  kept := by
    intro task hm
    exact (Memory.buffer?_writeOnly cell (UInt64.ne_of_lt (a.task_lt hm))).trans (a.kept task hm)
  owed := a.owed
  laid := by
    intro key
    have hlook : lookup key (h.memory.writeOnly cell).active.cells =
        if cell.key = key then some cell.version else lookup key h.memory.active.cells :=
      Buffer.lookup_write _ _ _
    have hlaid := a.laid key
    rw [overlay_concat] at hlaid
    show overlay (_ ++ [(h.memory.writeOnly cell).active.cells]) key =
      lastWrite? key (h.writes ++ [cell])
    rw [overlay_concat, hlook, lastWrite?_concat, ← hlaid]
    split
    · rfl
    · rfl
  final := a.final

theorem AddsUp.turned (a : h.AddsUp generation) (hc : h.memory.closed = false)
    (hr : h.memory.nextGeneration.toNat + 1 < UInt64.size) (final : Bool) :
    (h.turned final).AddsUp generation where
  ordered := a.ordered.turn hr final
  next := (a.handed_concat hr).1
  ascending := (a.handed_concat hr).2.1
  below := (a.handed_concat hr).2.2
  tasks := by
    show ((h.queued ++ [h.task final]).map FlushTask.generation ++
      [h.memory.nextGeneration]).Sublist (h.handed ++ [h.memory.nextGeneration])
    rw [List.map_append]
    exact a.tasks.append (List.Sublist.refl _)
  queue := by
    show h.queued ++ [h.task final] = h.taken ++ (h.memory.queue ++ [_])
    rw [a.queue, List.append_assoc]
    rfl
  kept := by
    intro task hm
    have hactive := a.ordered.active_lt
    rcases List.mem_append.mp hm with hm | hm
    · have hlt := UInt64.lt_trans (a.task_lt hm) hactive
      exact (Memory.buffer?_turn final (UInt64.ne_of_lt hlt)).trans (a.kept task hm)
    · rw [List.mem_singleton.mp hm]
      exact (Memory.buffer?_turn final (UInt64.ne_of_lt hactive)).trans h.memory.buffer?_active
  owed := by
    show (h.memory.turn final).pending.entries = (h.owed ++ [h.task final]).map _
    rw [Memory.entries_turn a.ordered, a.owed, List.map_append]
    rfl
  laid := by
    intro key
    have hempty : (h.memory.turn final).active.cells = [] := rfl
    show overlay ((h.queued ++ [h.task final]).map _ ++ [(h.memory.turn final).active.cells])
      key = _
    rw [overlay_concat, hempty, lookup_nil, Option.none_or, List.map_append]
    exact a.laid key
  final := (hc ▸ a.final).concat (h.task final)

theorem AddsUp.reserved (a : h.AddsUp generation)
    (hr : h.memory.nextGeneration.toNat + 1 < UInt64.size) :
    h.reserved.AddsUp generation := by
  obtain ⟨hnext, hascending, hbelow⟩ := a.handed_concat hr
  exact ⟨a.ordered.spend hr, hnext, hascending, hbelow,
    a.tasks.trans (List.sublist_append_left _ _), a.queue, a.kept, a.owed, a.laid, a.final⟩

theorem AddsUp.took (a : h.AddsUp generation) : h.took.AddsUp generation where
  ordered := ⟨a.ordered.pending_lt, a.ordered.active_lt, a.ordered.buffers, a.ordered.closed⟩
  next := a.next
  ascending := a.ascending
  below := a.below
  tasks := a.tasks
  queue := by
    show h.queued = h.taken ++ h.memory.queue.head?.toList ++ h.memory.queue.tail
    rw [a.queue, List.append_assoc]
    cases h.memory.queue with
    | nil => rfl
    | cons task rest => rfl
  kept := a.kept
  owed := a.owed
  laid := a.laid
  final := a.final

theorem AddsUp.acknowledged (a : h.AddsUp generation) (other : UInt64) :
    (h.acknowledged other).AddsUp generation where
  ordered := a.ordered.flushed other
  next := a.next
  ascending := a.ascending
  below := a.below
  tasks := a.tasks
  queue := a.queue
  kept := fun task hm => (h.memory.buffer?_flushed other _).trans (a.kept task hm)
  owed := by
    show (h.memory.pending.entries.filter fun e => e.1 ≠ other) = _
    rw [a.owed, List.filter_map]
    rfl
  laid := a.laid
  final := a.final

/-- What one call may come to. -/
inductive Change (h : History) : History → Prop
  | none : Change h h
  | write (cell : Cell) : h.memory.closed = false → Change h (h.wrote cell)
  | overfill (cell : Cell) : h.memory.closed = false →
    h.memory.nextGeneration.toNat + 1 < UInt64.size → Change h ((h.wrote cell).turned false)
  | turn (final : Bool) : h.memory.closed = false →
    h.memory.nextGeneration.toNat + 1 < UInt64.size → Change h (h.turned final)
  | take : Change h h.took
  | reserve : h.memory.nextGeneration.toNat + 1 < UInt64.size → Change h h.reserved
  | acknowledge (generation : UInt64) : Change h (h.acknowledged generation)

theorem change_write {memory : Memory} {cell : Cell} (hw : h.memory.write cell = .ok memory) :
    Change h
      { memory
        handed := h.handed ++
          (memory.queue.drop h.memory.queue.length).map fun _ => memory.activeGeneration
        queued := h.queued ++ memory.queue.drop h.memory.queue.length
        taken := h.taken
        owed := h.owed ++ memory.queue.drop h.memory.queue.length
        writes := h.writes ++ [cell] } := by
  obtain ⟨hc, rfl | ⟨hr, rfl⟩⟩ := Memory.write_cases hw
  · have hsame : (h.memory.writeOnly cell).queue.drop h.memory.queue.length = [] :=
      List.drop_length
    rw [hsame, List.map_nil, List.append_nil, List.append_nil, List.append_nil]
    exact .write cell hc
  · have htask : ((h.memory.writeOnly cell).turn false).queue.drop h.memory.queue.length =
        [(h.wrote cell).task false] := List.drop_left
    rw [htask]
    exact .overfill cell hc hr

/-- A call that rotates the active table. -/
theorem call_eq_turned {request : Request} {final : Bool}
    (hr : request = .rotate ∨ request = .close)
    (hp : h.memory.perform request = .ok (h.memory.turn final)) :
    h.call request = .ok (h.turned final) := by
  have htask : (h.memory.turn final).queue.drop h.memory.queue.length = [h.task final] :=
    List.drop_left
  have hactive : (h.memory.turn final).activeGeneration = h.memory.nextGeneration := rfl
  rcases hr with rfl | rfl <;>
    simp [call, hp, entered, htask, hactive, Request.cells, turned]

/-- A call that does not overflow is one of the changes, and a call that does has found no generation
left. -/
theorem call_cases (h : History) (request : Request) :
    (∃ next, h.call request = .ok next ∧ Change h next) ∨
      h.call request = .error .overflow ∧ ¬ h.memory.nextGeneration.toNat + 1 < UInt64.size := by
  cases hp : h.memory.perform request with
  | error fault =>
    rcases Memory.perform_eq_error hp with ⟨rfl, -⟩ | ⟨rfl, hr⟩
    · exact Or.inl ⟨h, by rw [call, hp], .none⟩
    · exact Or.inr ⟨by rw [call, hp], hr⟩
  | ok memory =>
    refine Or.inl ?_
    cases request with
    | put | delete => simpa [call, hp, entered, Request.cells] using change_write hp
    | rotate =>
      obtain ⟨⟨generation, memory⟩, hm, rfl⟩ := map_eq_ok.mp hp
      obtain ⟨hc, ⟨-, -, rfl⟩ | ⟨hr, -, -, rfl⟩⟩ := Memory.forceRotate_cases hm
      · simpa [call, hp, entered, Request.cells] using Change.none
      · exact ⟨_, call_eq_turned (Or.inl rfl) hp, .turn false hc hr⟩
    | take =>
      obtain rfl := Except.ok.inj hp
      simpa [call, hp, entered, Request.cells, Memory.take, took] using Change.take
    | acknowledge generation =>
      obtain rfl := Except.ok.inj hp
      simpa [call, hp, entered, Request.cells, Memory.flushed, acknowledged, eq_comm] using
        Change.acknowledge generation
    | reserve =>
      obtain ⟨hr, rfl⟩ := Memory.perform_reserve hp
      simpa [call, hp, entered, Request.cells, Memory.spend, reserved] using Change.reserve hr
    | close =>
      obtain ⟨-, rfl⟩ | ⟨hc, hr, rfl⟩ := Memory.close_cases hp
      · simpa [call, hp, entered, Request.cells] using Change.none
      · exact ⟨_, call_eq_turned (Or.inr rfl) hp, .turn true hc hr⟩

theorem change_of_call {next : History} {request : Request} (hc : h.call request = .ok next) :
    Change h next := by
  rcases h.call_cases request with ⟨other, ho, hchange⟩ | ⟨ho, -⟩ <;> rw [hc] at ho
  · exact Except.ok.inj ho ▸ hchange
  · simp at ho

/-- A call that is refused changes nothing; any other does its part. -/
theorem call_eq_ok {next : History} {request : Request} (hc : h.call request = .ok next) :
    next = h ∧ request.needsOpen = true ∨ h.memory.perform request = .ok next.memory := by
  unfold call at hc
  cases hp : h.memory.perform request with
  | error fault =>
    rcases Memory.perform_eq_error hp with ⟨rfl, -, hn⟩ | ⟨rfl, -⟩ <;> rw [hp] at hc
    · exact Or.inl ⟨(Except.ok.inj hc).symm, hn⟩
    · simp at hc
  | ok memory =>
    rw [hp] at hc
    exact Or.inr (Except.ok.inj hc ▸ rfl)

/-- The record adds up after a change. -/
theorem AddsUp.change (a : h.AddsUp generation) {next : History} (hc : Change h next) :
    next.AddsUp generation := by
  cases hc with
  | none => exact a
  | write cell hc => exact a.wrote hc cell
  | overfill cell hc hr => exact (a.wrote hc cell).turned hc hr false
  | turn final hc hr => exact a.turned hc hr final
  | take => exact a.took
  | reserve hr => exact a.reserved hr
  | acknowledge other => exact a.acknowledged other

/-- A change hands out one generation at most. -/
theorem Change.length_handed_le {next : History} (hc : Change h next) :
    next.handed.length ≤ h.handed.length + 1 := by
  have hmore : (h.handed ++ [h.memory.nextGeneration]).length ≤ h.handed.length + 1 :=
    Nat.le_of_eq List.length_append
  cases hc with
  | none | write | take | acknowledge => exact Nat.le_succ _
  | overfill | turn | reserve => exact hmore

theorem ofCalls_concat (threshold filterBits : Nat) (generation : UInt64)
    (requests : List Request) (request : Request) :
    ofCalls threshold filterBits generation (requests ++ [request]) =
      ofCalls threshold filterBits generation requests >>= (·.call request) := by
  unfold ofCalls
  cases start threshold filterBits generation with
  | error fault => rfl
  | ok first => exact first.run_concat requests request

/-- What holds of a new memory and is kept by every call holds of every history. -/
theorem ofCalls_induction {threshold filterBits : Nat} {P : List Request → History → Prop}
    (hstart : ∀ h, start threshold filterBits generation = .ok h → P [] h)
    (hcall : ∀ requests request h next, P requests h → h.call request = .ok next →
      P (requests ++ [request]) next) {requests : List Request}
    (hs : ofCalls threshold filterBits generation requests = .ok h) : P requests h := by
  induction requests using List.reverseRecOn generalizing h with
  | nil =>
    obtain ⟨first, hfirst, hnil⟩ := bind_eq_ok.mp hs
    obtain rfl := Except.ok.inj hnil
    exact hstart first hfirst
  | append_singleton requests request ih =>
    rw [ofCalls_concat] at hs
    obtain ⟨before, hbefore, hlast⟩ := bind_eq_ok.mp hs
    exact hcall requests request before h (ih hbefore) hlast

theorem addsUp_ofCalls {threshold filterBits : Nat} {requests : List Request}
    (hs : ofCalls threshold filterBits generation requests = .ok h) :
    h.AddsUp generation ∧ h.handed.length ≤ requests.length + 1 := by
  refine ofCalls_induction (P := fun requests h =>
    h.AddsUp generation ∧ h.handed.length ≤ requests.length + 1) (fun first hfirst => ?_)
    (fun requests request before after ih hlast => ?_) hs
  · refine ⟨addsUp_start hfirst, ?_⟩
    obtain ⟨-, rfl⟩ := start_eq_ok.mp hfirst
    exact Nat.le_refl _
  · have hc := change_of_call hlast
    refine ⟨ih.1.change hc, ?_⟩
    have hle := hc.length_handed_le
    rw [List.length_append, List.length_singleton]
    omega

/-- Calls end early only when so many have been made that the generations are used up. -/
theorem ofCalls_eq_error {threshold filterBits : Nat} {requests : List Request} {fault : Fault}
    (hs : ofCalls threshold filterBits generation requests = .error fault) :
    fault = .overflow ∧ UInt64.size ≤ generation.toNat + requests.length + 1 := by
  induction requests using List.reverseRecOn with
  | nil =>
    rcases bind_eq_error.mp hs with hs | ⟨_, -, hs⟩
    · by_cases hr : generation.toNat + 1 < UInt64.size
      · simp [start, Memory.startAt_of_room _ _ hr] at hs
      · rw [start, Memory.startAt_of_last _ _ hr, error_bind, Except.error.injEq] at hs
        exact ⟨hs.symm, Nat.not_lt.mp hr⟩
    · simp [run] at hs
  | append_singleton requests request ih =>
    rw [ofCalls_concat] at hs
    rw [List.length_append, List.length_singleton]
    rcases bind_eq_error.mp hs with hs | ⟨before, hbefore, hs⟩
    · obtain ⟨hfault, hle⟩ := ih hs
      exact ⟨hfault, by omega⟩
    · obtain ⟨a, hle⟩ := addsUp_ofCalls hbefore
      rcases before.call_cases request with ⟨_, hcall, -⟩ | ⟨hcall, hr⟩ <;> rw [hs] at hcall
      · simp at hcall
      · have hnext := a.next
        exact ⟨Except.error.inj hcall, by omega⟩

/-! ### What holds at every moment -/

/-- The versions of a key in the tables not acknowledged, oldest first, and in the active one. -/
def versions (h : History) (key : Bytes) : List Version :=
  (h.owed.map (·.buffer.cells) ++ [h.memory.active.cells]).filterMap (lookup key)

/-- What the calls of a memory have done, and what reading it then finds. -/
structure IsExact (threshold : Nat) (requests : List Request) (h : History) : Prop where
  /-- No generation is handed out twice, and tasks have those of their tables. -/
  handed : h.handed.Pairwise (· < ·)
  tables : (h.queued.map FlushTask.generation ++ [h.memory.activeGeneration]).Sublist h.handed
  /-- Tasks enter the queue in the order of their generations and leave it in that order. -/
  queued : h.queued.Pairwise fun a b => a.generation < b.generation
  taken : h.queued = h.taken ++ h.memory.queue
  /-- A table holds what it held when it was rotated. -/
  kept : ∀ task ∈ h.queued, h.memory.buffer? task.generation = some task.buffer
  /-- Nothing that was written is lost, and nothing else is there. -/
  laid : ∀ key, overlay ((h.taken ++ h.memory.queue).map (·.buffer.cells) ++
    [h.memory.active.cells]) key = lastWrite? key h.writes
  small : h.memory.active.size ≤ threshold
  /-- The first close puts the one final task behind all others. -/
  closed : h.memory.closed = true ↔ .close ∈ requests
  final : EndsClosed h.memory.closed h.queued
  refused : h.memory.closed = true → ∀ request, request.needsOpen = true →
    h.memory.perform request = .error .closed ∧ h.call request = .ok h
  /-- Getting a key and scanning find the newest version that is not acknowledged. -/
  get : ∀ key, h.memory.get key = Version.newest (h.versions key)
  scan : ∀ first, ∃ cells, h.memory.scan first = cells.map .ok ∧ Ascending cells ∧
    (∀ cell ∈ cells, ¬ cell.key < first) ∧
    ∀ key, ¬ key < first → (lookup key cells = none ↔ h.versions key = []) ∧
      (lookup key cells).getD .absent = h.memory.get key

theorem small_ofCalls {threshold filterBits : Nat} {requests : List Request}
    (hs : ofCalls threshold filterBits generation requests = .ok h) :
    h.memory.threshold = threshold ∧ h.memory.active.size ≤ threshold := by
  refine ofCalls_induction (P := fun _ h =>
    h.memory.threshold = threshold ∧ h.memory.active.size ≤ threshold) (fun first hfirst => ?_)
    (fun requests request before after ih hlast => ?_) hs
  · obtain ⟨-, rfl⟩ := start_eq_ok.mp hfirst
    exact ⟨rfl, Nat.zero_le _⟩
  · rcases call_eq_ok hlast with ⟨rfl, -⟩ | hp
    · exact ih
    · obtain ⟨hsame, hsmall⟩ := Memory.perform_small hp (ih.1.symm ▸ ih.2)
      exact ⟨hsame.trans ih.1, ih.1 ▸ hsmall⟩

theorem closed_ofCalls {threshold filterBits : Nat} {requests : List Request}
    (hs : ofCalls threshold filterBits generation requests = .ok h) :
    h.memory.closed = true ↔ .close ∈ requests := by
  refine ofCalls_induction (P := fun requests h => h.memory.closed = true ↔ .close ∈ requests)
    (fun first hfirst => ?_) (fun requests request before after ih hlast => ?_) hs
  · obtain ⟨-, rfl⟩ := start_eq_ok.mp hfirst
    simp [Memory.empty]
  · rw [List.mem_append, List.mem_singleton, ← ih, eq_comm (a := Request.close)]
    rcases call_eq_ok hlast with ⟨rfl, hrefused⟩ | hp
    · refine (or_iff_left ?_).symm
      rintro rfl
      simp [Request.needsOpen] at hrefused
    · exact Memory.closed_perform hp

theorem AddsUp.versions_eq (a : h.AddsUp generation) (key : Bytes) :
    h.memory.versions key = h.versions key := by
  have hpending : h.memory.pending.values = h.owed.map FlushTask.buffer := by
    rw [Generations.values, a.owed, List.map_map]
    rfl
  rw [Memory.versions, Memory.tables, hpending, versions, List.filterMap_append,
    List.filterMap_append, List.filterMap_map, List.filterMap_map]
  rfl

theorem isExact_ofCalls {threshold filterBits : Nat} {requests : List Request}
    (hs : ofCalls threshold filterBits generation requests = .ok h) :
    h.IsExact threshold requests := by
  have a := (addsUp_ofCalls hs).1
  have hsmall := (small_ofCalls hs).2
  have hclosed := closed_ofCalls hs
  refine ⟨a.ascending, a.tasks, ?_, a.queue, a.kept, ?_, hsmall, hclosed, a.final, ?_, ?_, ?_⟩
  · have hasc := (List.pairwise_append.mp (a.ascending.sublist a.tasks)).1
    exact List.pairwise_map.mp hasc
  · intro key
    rw [← a.queue]
    exact a.laid key
  · intro hc request hn
    have hp := Memory.perform_of_closed hc hn
    exact ⟨hp, by rw [call, hp]⟩
  · intro key
    rw [Memory.get_eq a.ordered.buffers, a.versions_eq]
  · intro first
    obtain ⟨cells, hcells, hasc, hlook⟩ := a.ordered.isSound.toList_cursor first
    refine ⟨cells, hcells, hasc, fun cell hm hlt => ?_, fun key hk => ?_⟩
    · have hnone := hlook cell.key
      rw [if_pos hlt, hasc.lookup_of_mem hm] at hnone
      simp at hnone
    · rw [hlook, if_neg hk, Memory.get_eq a.ordered.buffers, a.versions_eq]
      cases h.versions key with
      | nil => simp [Version.newest?]
      | cons v vs => simp [Version.newest?]

/-- Whatever the calls, none is lost or done twice, unless so many are made that the generations are
used up. -/
theorem run_isExact (threshold filterBits : Nat) (generation : UInt64) (requests : List Request) :
    (∃ h, ofCalls threshold filterBits generation requests = .ok h ∧
      h.IsExact threshold requests) ∨
    ofCalls threshold filterBits generation requests = .error .overflow ∧
      UInt64.size ≤ generation.toNat + requests.length + 1 := by
  cases hs : ofCalls threshold filterBits generation requests with
  | ok h => exact Or.inl ⟨h, rfl, isExact_ofCalls hs⟩
  | error fault =>
    obtain ⟨rfl, hle⟩ := ofCalls_eq_error hs
    exact Or.inr ⟨rfl, hle⟩

/-- Calls of all kinds, before and after a close. -/
theorem isExact_of_calls : ∃ h,
    ofCalls 4 64 1 [.put [97] [98] 1, .reserve, .rotate, .put [97] [99, 100, 101, 102] 2,
      .acknowledge 9, .take, .close, .delete [97] 3, .acknowledge 1] = .ok h ∧
    h.IsExact 4 [.put [97] [98] 1, .reserve, .rotate, .put [97] [99, 100, 101, 102] 2,
      .acknowledge 9, .take, .close, .delete [97] 3, .acknowledge 1] :=
  (run_isExact 4 64 1 _).resolve_right fun h => absurd h.2 (by decide)

end History

end TableStore

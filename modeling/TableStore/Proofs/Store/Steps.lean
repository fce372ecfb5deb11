import TableStore.Proofs.Memory.Order
import TableStore.Store.Flush

/-! The steps of a store in use. Clients write, rotate and close; in the background tasks are
received, the first of the backlog is flushed or fails to be, and tables are compacted; once the
final task is in the backlog, the worker may give the backlog up. These may follow one another in
any order, and an attempt fails whenever the disk refuses it. What the worker does on its own is
background work, and settling, flushing and closing are runs of steps: they allocate at most one
generation for each task that is waiting, and one more to rotate. -/

namespace TableStore

namespace Store

/-- One step in the background: a task is received, the first task of the backlog is flushed or
fails to be, or a compaction is attempted. -/
inductive Work : Store → Store → Prop
  | receive {s : Store} {task : FlushTask} {rest : List FlushTask} :
    s.memory.queue = task :: rest → Work s
      { s with memory := { s.memory with queue := rest }, backlog := s.backlog ++ [task] }
  | flush {s s' : Store} {task : FlushTask} {rest : List FlushTask} :
    s.backlog = task :: rest → s.flushTable task = (none, s') → Work s { s' with backlog := rest }
  | fail {s s' : Store} {task : FlushTask} {rest : List FlushTask} {fault : Fault} :
    s.backlog = task :: rest → s.flushTable task = (some fault, s') → Work s s'
  | compact (s : Store) : Work s s.compact.2

/-- One step of a store, and the cells whose writes it acknowledges. -/
inductive Step : Store → List Cell → Store → Prop
  | put {s s' : Store} {key data : Bytes} {stamp : Stamp} :
    s.put key data stamp = .ok s' → Step s [⟨key, .present stamp data⟩] s'
  | delete {s s' : Store} {key : Bytes} {stamp : Stamp} :
    s.delete key stamp = .ok s' → Step s [⟨key, .tombstone stamp⟩] s'
  | rotate {s : Store} {generation : Option UInt64} {memory : Memory} :
    s.memory.forceRotate = .ok (generation, memory) → Step s [] { s with memory }
  | close {s : Store} {memory : Memory} : s.memory.close = .ok memory → Step s [] { s with memory }
  | work {s s' : Store} : Work s s' → Step s [] s'
  | abandon {s : Store} {task : FlushTask} :
    task ∈ s.backlog → task.final = true → Step s [] { s with backlog := [] }

/-- So many generations can still be handed out. -/
def HasRoomFor (n : Nat) (s : Store) : Prop := s.memory.nextGeneration.toNat + n < UInt64.size

instance (n : Nat) (s : Store) : Decidable (s.HasRoomFor n) := inferInstanceAs (Decidable (_ < _))

theorem HasRoomFor.mono {k n : Nat} {s : Store} (h : s.HasRoomFor n) (hle : k ≤ n) :
    s.HasRoomFor k := by
  unfold HasRoomFor at *
  omega

/-- Background steps one after another, each with a generation to spare. -/
inductive Works (start : Store) : Store → Prop
  | refl : Works start start
  | step {s s' : Store} : Works start s → s.HasRoomFor 1 → Work s s' → Works start s'

/-- Steps one after another, each with a generation to spare, and all cells acknowledged. -/
inductive Run (start : Store) : List Cell → Store → Prop
  | refl : Run start [] start
  | step {s s' : Store} {writes cells : List Cell} :
    Run start writes s → s.HasRoomFor 1 → Step s cells s' → Run start (writes ++ cells) s'

theorem Works.trans {a b c : Store} (h : Works a b) (h' : Works b c) : Works a c := by
  induction h' with
  | refl => exact h
  | step _ hr hw ih => exact ih.step hr hw

theorem Works.run {a b : Store} (h : Works a b) : Run a [] b := by
  induction h with
  | refl => exact .refl
  | step _ hr hw ih => exact ih.step hr (.work hw)

theorem Run.trans {a b c : Store} {writes more : List Cell} (h : Run a writes b)
    (h' : Run b more c) : Run a (writes ++ more) c := by
  induction h' with
  | refl => simpa using h
  | step _ hr hs ih => exact List.append_assoc _ _ _ ▸ ih.step hr hs

/-! ### What the worker's operations leave alone -/

/-- Two stores agree on the queue, the backlog and on being closed, and the first has used up at
most `n` generations more. -/
structure SameTasks (n : Nat) (s s' : Store) : Prop where
  queue : s'.memory.queue = s.memory.queue
  backlog : s'.backlog = s.backlog
  closed : s'.memory.closed = s.memory.closed
  spent : s.HasRoomFor n →
    s'.memory.nextGeneration.toNat ≤ s.memory.nextGeneration.toNat + n

theorem sameTasks_flushTable (s : Store) (task : FlushTask) :
    SameTasks 0 s (s.flushTable task).2 := by
  unfold flushTable
  split
  · exact ⟨rfl, rfl, rfl, fun _ => Nat.le_refl _⟩
  · split
    split
    · exact ⟨rfl, rfl, rfl, fun _ => Nat.le_refl _⟩
    · dsimp only
      split
      · exact ⟨rfl, rfl, rfl, fun _ => Nat.le_refl _⟩
      · exact ⟨rfl, rfl, rfl, fun _ => Nat.le_refl _⟩

@[simp] theorem memory_removeFile (s : Store) (t : Table) : (s.removeFile t).memory = s.memory := by
  rw [removeFile]

@[simp] theorem backlog_removeFile (s : Store) (t : Table) :
    (s.removeFile t).backlog = s.backlog := by
  rw [removeFile]

@[simp] theorem memory_foldl_removeFile (inputs : List Table) (s : Store) :
    (inputs.foldl removeFile s).memory = s.memory := by
  induction inputs generalizing s with
  | nil => rfl
  | cons t inputs ih => rw [List.foldl_cons, ih, memory_removeFile]

@[simp] theorem backlog_foldl_removeFile (inputs : List Table) (s : Store) :
    (inputs.foldl removeFile s).backlog = s.backlog := by
  induction inputs generalizing s with
  | nil => rfl
  | cons t inputs ih => rw [List.foldl_cons, ih, backlog_removeFile]

/-- The registry after tables were unregistered. -/
def eraseAll (inputs : List Table) (tables : Generations Table) : Generations Table :=
  inputs.foldl (fun g t => g.erase t.generation) tables

theorem find?_eraseAll (inputs : List Table) (tables : Generations Table) (generation : UInt64) :
    (eraseAll inputs tables).find? generation =
      if generation ∈ inputs.map Table.generation then none else tables.find? generation := by
  unfold eraseAll
  induction inputs generalizing tables with
  | nil => simp
  | cons t inputs ih =>
    rw [List.foldl_cons, ih, Generations.find?_erase, List.map_cons]
    by_cases hm : generation ∈ inputs.map Table.generation
    · simp [hm]
    · by_cases ht : t.generation = generation
      · simp [ht]
      · simp [hm, ht, Ne.symm ht]

/-- What is registered when some were unregistered was registered before. -/
theorem find?_of_eraseAll {tables : Generations Table} {gone : List Table} {generation : UInt64}
    {t : Table} (hfound : (eraseAll gone tables).find? generation = some t) :
    tables.find? generation = some t := by
  rw [find?_eraseAll] at hfound
  split at hfound
  · simp at hfound
  · exact hfound

/-- When one was registered before that, it may be this one. -/
theorem find?_of_eraseAll_insert {tables : Generations Table} {gone : List Table}
    {added generation : UInt64} {t other : Table}
    (hfound : (eraseAll gone (tables.insert added t)).find? generation = some other) :
    generation = added ∧ other = t ∨ tables.find? generation = some other := by
  have hbefore := find?_of_eraseAll hfound
  rw [Generations.find?_insert] at hbefore
  split at hbefore
  · rename_i he
    exact Or.inl ⟨he.symm, (Option.some.inj hbefore).symm⟩
  · exact Or.inr hbefore

theorem foldl_unregister (inputs : List Table) (s : Store) :
    inputs.foldl (fun s t => s.unregister t.generation) s =
      { s with tables := eraseAll inputs s.tables } := by
  induction inputs generalizing s with
  | nil => rfl
  | cons t inputs ih =>
    rw [List.foldl_cons, ih]
    rfl

theorem replaceTables_eq_folds (s : Store) (inputs : List Table) (output : Table) :
    s.replaceTables inputs output =
      inputs.foldl removeFile (inputs.foldl (fun s t => s.unregister t.generation)
        (s.register output.generation output)) := by
  rw [replaceTables, takeInAll, replacement, List.cons_append, List.foldl_cons,
    List.foldl_append, List.foldl_map, List.foldl_map]
  rfl

@[simp] theorem memory_replaceTables (s : Store) (inputs : List Table) (output : Table) :
    (s.replaceTables inputs output).memory = s.memory := by
  rw [replaceTables_eq_folds, memory_foldl_removeFile, foldl_unregister]
  rfl

@[simp] theorem backlog_replaceTables (s : Store) (inputs : List Table) (output : Table) :
    (s.replaceTables inputs output).backlog = s.backlog := by
  rw [replaceTables_eq_folds, backlog_foldl_removeFile, foldl_unregister]
  rfl

theorem toNat_spend {m : Memory} (h : m.nextGeneration.toNat + 1 < UInt64.size) :
    m.spend.nextGeneration.toNat = m.nextGeneration.toNat + 1 :=
  Memory.toNat_next_of_room h

theorem sameTasks_compact (s : Store) : SameTasks 1 s s.compact.2 := by
  have hspend : ∀ s' : Store, s'.memory = s.memory.spend → s'.backlog = s.backlog →
      SameTasks 1 s s' := by
    intro s' hm hb
    refine ⟨by rw [hm]; rfl, hb, by rw [hm]; rfl, fun hr => ?_⟩
    have hnext := toNat_spend hr
    rw [hm]
    omega
  have hsame : SameTasks 1 s s := ⟨rfl, rfl, rfl, fun _ => Nat.le_succ _⟩
  by_cases hr : s.HasRoomFor 1
  · unfold compact
    simp only [Memory.allocate_of_room hr]
    split
    · exact hsame
    · split
      · exact hspend _ rfl rfl
      · split
        · exact hspend _ rfl rfl
        · exact hspend _ (memory_replaceTables _ _ _) (backlog_replaceTables _ _ _)
  · unfold compact
    simp only [Memory.allocate_of_last hr]
    split
    · exact hsame
    · exact hsame

theorem sameTasks_compactIfCrowded (s : Store) : SameTasks 1 s s.compactIfCrowded := by
  unfold compactIfCrowded
  split
  · exact sameTasks_compact s
  · exact ⟨rfl, rfl, rfl, fun _ => Nat.le_succ _⟩

theorem compactIfCrowded_works {s : Store} (hr : s.HasRoomFor 1) :
    Works s s.compactIfCrowded ∧ SameTasks 1 s s.compactIfCrowded := by
  refine ⟨?_, sameTasks_compactIfCrowded s⟩
  unfold compactIfCrowded
  split
  · exact Works.refl.step hr (.compact s)
  · exact .refl

/-! ### Passes over the backlog -/

/-- What a pass over some tasks comes to: background steps after which the tasks not done are still
the backlog, none of them exactly when the pass succeeds, with a generation used up for each task
done at most. -/
structure PassedTo (tasks : List FlushTask) (s : Store) (result : Option Fault × Store) : Prop where
  works : Works s result.2
  queue : result.2.memory.queue = s.memory.queue
  closed : result.2.memory.closed = s.memory.closed
  backlog : ∃ done, tasks = done ++ result.2.backlog
  outcome : result.1 = none ↔ result.2.backlog = []
  spent : result.2.memory.nextGeneration.toNat + result.2.backlog.length ≤
    s.memory.nextGeneration.toNat + tasks.length

theorem passedTo_pass (tasks : List FlushTask) (s : Store) (hb : s.backlog = tasks)
    (hr : s.HasRoomFor (tasks.length + 1)) : PassedTo tasks s (s.pass tasks) := by
  induction tasks generalizing s with
  | nil => exact ⟨.refl, rfl, rfl, ⟨[], hb.symm⟩, by simp [pass, hb], by simp [pass, hb]⟩
  | cons task rest ih =>
    have hsame := sameTasks_flushTable s task
    have hone : s.HasRoomFor 1 := hr.mono (by omega)
    have hspent := hsame.spent (by unfold HasRoomFor at *; omega)
    unfold pass
    rcases hf : s.flushTable task with ⟨_ | fault, t⟩
    · rw [hf] at hsame hspent
      dsimp only at hsame hspent ⊢
      have hwork : Works s { t with backlog := rest } := Works.refl.step hone (.flush hb hf)
      have hroom : ({ t with backlog := rest } : Store).HasRoomFor 1 := by
        unfold HasRoomFor at *
        rw [List.length_cons] at hr
        dsimp only
        omega
      obtain ⟨hworks, hcompact⟩ := compactIfCrowded_works hroom
      have hnext := hcompact.spent hroom
      have hrest := ih _ hcompact.backlog (by
        unfold HasRoomFor at *
        rw [List.length_cons] at hr
        dsimp only at hnext
        omega)
      refine ⟨(hwork.trans hworks).trans hrest.works, ?_, ?_, ?_, hrest.outcome, ?_⟩
      · exact hrest.queue.trans (hcompact.queue.trans hsame.queue)
      · exact hrest.closed.trans (hcompact.closed.trans hsame.closed)
      · obtain ⟨done, hd⟩ := hrest.backlog
        exact ⟨task :: done, by rw [List.cons_append, ← hd]⟩
      · have hle := hrest.spent
        rw [List.length_cons]
        dsimp only at hnext
        omega
    · rw [hf] at hsame hspent
      dsimp only at hsame hspent ⊢
      have hleft : t.backlog = task :: rest := hsame.backlog.trans hb
      refine ⟨Works.refl.step hone (.fail hb hf), hsame.queue, hsame.closed, ⟨[], hleft.symm⟩, ?_,
        ?_⟩
      · simp [hleft]
      · dsimp only
        rw [hleft]
        omega

theorem passedTo_drain (s : Store) (hr : s.HasRoomFor (s.backlog.length + 1)) :
    PassedTo s.backlog s s.drain := passedTo_pass s.backlog s rfl hr

theorem passedTo_drainWithin (passes : Nat) (s : Store)
    (hr : s.HasRoomFor (s.backlog.length + 1)) (hp : passes ≠ 0) :
    PassedTo s.backlog s (s.drainWithin passes) := by
  induction passes generalizing s with
  | zero => exact absurd rfl hp
  | succ passes ih =>
    have hpass := passedTo_drain s hr
    unfold drainWithin
    rcases hd : s.drain with ⟨_ | fault, t⟩
    · rw [hd] at hpass
      exact hpass
    · rw [hd] at hpass
      dsimp only
      by_cases hzero : passes = 0
      · rw [if_pos hzero]
        exact hpass
      · rw [if_neg hzero]
        have hle := hpass.spent
        have hmore := ih t (by unfold HasRoomFor at *; dsimp only at hle; omega) hzero
        refine ⟨hpass.works.trans hmore.works, hmore.queue.trans hpass.queue,
          hmore.closed.trans hpass.closed, ?_, hmore.outcome,
          Nat.le_trans hmore.spent hle⟩
        obtain ⟨done, hdone⟩ := hpass.backlog
        obtain ⟨more, hmoreDone⟩ := hmore.backlog
        dsimp only at hdone
        exact ⟨done ++ more, by rw [List.append_assoc, ← hmoreDone, ← hdone]⟩

/-! ### The queue -/

/-- What receiving the queue comes to: a run of steps that uses up a generation for each task done
at most. It stops behind a final task. Without a fault nothing was given up, and a final task
leaves nothing in the backlog. -/
structure ReceivedTo (tasks : List FlushTask) (s : Store) (result : Option Fault × Store) :
    Prop where
  run : Run s [] result.2
  spent : result.2.memory.nextGeneration.toNat + result.2.backlog.length ≤
    s.memory.nextGeneration.toNat + s.backlog.length + tasks.length
  works : result.1 = none → Works s result.2
  final : (∃ task ∈ tasks, task.final = true) → result.2.backlog = [] ∧
    ∃ front task, tasks = front ++ task :: result.2.memory.queue ∧ task.final = true

theorem receivedTo_finish {s : Store} {task : FlushTask} (hm : s.backlog.getLast? = some task)
    (hf : task.final = true) (hr : s.HasRoomFor (s.backlog.length + 1)) :
    Run s [] s.finish.2 ∧ (s.finish.1 = none → Works s s.finish.2) ∧ s.finish.2.backlog = [] ∧
      s.finish.2.memory.queue = s.memory.queue ∧
      s.finish.2.memory.nextGeneration.toNat ≤
        s.memory.nextGeneration.toNat + s.backlog.length := by
  have hpass := passedTo_drainWithin finalPasses s hr (by decide)
  have hle := hpass.spent
  unfold finish
  rcases hd : s.drainWithin finalPasses with ⟨_ | fault, worked⟩
  · rw [hd] at hpass hle
    have hnil : worked.backlog = [] := hpass.outcome.mp rfl
    have hsame : ({ worked with backlog := [] } : Store) = worked := by rw [← hnil]
    dsimp only at hle ⊢
    rw [hsame]
    exact ⟨hpass.works.run, fun _ => hpass.works, rfl, hpass.queue, by omega⟩
  · rw [hd] at hpass hle
    dsimp only at hle ⊢
    have hne : worked.backlog ≠ [] := fun hnil => by simpa using hpass.outcome.mpr hnil
    -- The passes take tasks off the front, so the final one is still there.
    have hlast : task ∈ worked.backlog := by
      obtain ⟨done, hdone⟩ := hpass.backlog
      dsimp only at hdone
      rw [hdone, List.getLast?_append, List.getLast?_eq_some_getLast hne, Option.some_or,
        Option.some.injEq] at hm
      exact hm ▸ List.getLast_mem hne
    have hroom : worked.HasRoomFor 1 := by
      have hpos := List.length_pos_iff.mpr hne
      unfold HasRoomFor at *
      omega
    refine ⟨hpass.works.run.step hroom (.abandon hlast hf), by simp, rfl, hpass.queue, ?_⟩
    omega

/-- The store when its worker has received the first task of its queue. -/
def taken (s : Store) (task : FlushTask) (rest : List FlushTask) : Store :=
  { s with memory := { s.memory with queue := rest }, backlog := s.backlog ++ [task] }

theorem length_backlog_taken (s : Store) (task : FlushTask) (rest : List FlushTask) :
    (s.taken task rest).backlog.length = s.backlog.length + 1 := List.length_append

theorem HasRoomFor.taken {s : Store} {task : FlushTask} {rest : List FlushTask}
    (h : s.HasRoomFor (s.backlog.length + (task :: rest).length + 1)) :
    (s.taken task rest).HasRoomFor ((s.taken task rest).backlog.length + rest.length + 1) := by
  rw [length_backlog_taken]
  rw [List.length_cons, ← Nat.add_assoc, Nat.add_right_comm _ rest.length 1] at h
  exact h

theorem receivedTo_receive (tasks : List FlushTask) (s : Store) (hq : s.memory.queue = tasks)
    (hr : s.HasRoomFor (s.backlog.length + tasks.length + 1)) :
    ReceivedTo tasks s (s.receive tasks) := by
  induction tasks generalizing s with
  | nil => exact ⟨.refl, Nat.le_refl _, fun _ => .refl, by simp⟩
  | cons task rest ih =>
    have hone : s.HasRoomFor 1 := hr.mono (by omega)
    have hreceive : Works s (s.taken task rest) := Works.refl.step hone (.receive hq)
    have hlength := length_backlog_taken s task rest
    have hnext : (s.taken task rest).memory.nextGeneration = s.memory.nextGeneration := rfl
    have hall := HasRoomFor.taken hr
    have hroom : (s.taken task rest).HasRoomFor ((s.taken task rest).backlog.length + 1) :=
      hall.mono (by omega)
    have hstep : s.receive (task :: rest) = if task.final = true then
        (s.taken task rest).finish else (s.taken task rest).drain.2.receive rest := rfl
    rw [hstep]
    by_cases hfinal : task.final = true
    · rw [if_pos hfinal]
      obtain ⟨hrun, hworks, hbacklog, hqueue, hle⟩ :=
        receivedTo_finish List.getLast?_concat hfinal hroom
      rw [hnext, hlength] at hle
      refine ⟨hreceive.run.trans hrun, ?_, fun ho => hreceive.trans (hworks ho), fun _ =>
        ⟨hbacklog, [], task, ?_, hfinal⟩⟩
      · rw [hbacklog, List.length_cons, List.length_nil]
        omega
      · rw [hqueue]
        rfl
    · rw [if_neg hfinal]
      have hpass := passedTo_drain (s.taken task rest) hroom
      have hle := hpass.spent
      have hrest := ih (s.taken task rest).drain.2 hpass.queue (by
        unfold HasRoomFor at *
        omega)
      rw [hnext, hlength] at hle
      have hspent := hrest.spent
      refine ⟨(hreceive.trans hpass.works).run.trans hrest.run, ?_, fun ho =>
        (hreceive.trans hpass.works).trans (hrest.works ho), ?_⟩
      · rw [List.length_cons]
        omega
      · rintro ⟨other, hm, hf⟩
        rcases List.mem_cons.mp hm with rfl | hm
        · exact absurd hf hfinal
        · obtain ⟨hbacklog, front, last, hs, hl⟩ := hrest.final ⟨other, hm, hf⟩
          exact ⟨hbacklog, task :: front, last, congrArg (task :: ·) hs, hl⟩

/-! ### Settling, flushing and closing -/

/-- The number of tasks that are not done. -/
def waiting (s : Store) : Nat := s.backlog.length + s.memory.queue.length

/-- Letting the worker settle is a run of steps. -/
theorem run_settle {s : Store} (hr : s.HasRoomFor (s.waiting + 1)) : Run s [] s.settle := by
  have hreceived := receivedTo_receive s.memory.queue s rfl hr
  have hle := hreceived.spent
  have hpass := passedTo_drain s.work (by
    unfold HasRoomFor waiting at *
    show (s.receive s.memory.queue).2.memory.nextGeneration.toNat +
      ((s.receive s.memory.queue).2.backlog.length + 1) < _
    omega)
  exact hreceived.run.trans hpass.works.run

end Store

end TableStore

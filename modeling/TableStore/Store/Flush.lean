import TableStore.Store.Compaction

/-! The flush worker. It receives the tasks of rotated tables in order and keeps them in a
backlog until they are done. A pass over the backlog writes table after table and stops at the
first that fails; the rest is tried again later, and stays readable in memory. After the final
task the worker makes up to three passes and ends with the fault of the last one if the
backlog is still not empty. -/

namespace TableStore

namespace Store

/-! ### One table -/

/-- How the table of a task takes the place of the one in memory: it is registered before that is
acknowledged. -/
def handover (task : FlushTask) (table : Table) : List Intake :=
  [.register task.generation table, .acknowledge task.generation]

/-- Writes the table of a task and takes it in. An empty one is acknowledged without a file. -/
def flushTable (s : Store) (task : FlushTask) : Option Fault × Store :=
  if task.buffer.isEmpty then (none, s.acknowledge task.generation)
  else
    let (outcome, disk) := Draft.build s.disk task.generation s.settings.layout
      s.settings.filterBits (task.buffer.cells.map .ok)
    let s := { s with disk }
    match outcome with
    | .error fault => (some fault, s)
    | .ok _ =>
      match s.disk.openTable (TableName.file task.generation s.settings.layout) with
      | .error fault => (some fault, s)
      | .ok table => (none, s.takeInAll (handover task table))

/-! ### The backlog -/

/-- One pass over tasks, which are the backlog: each that is done leaves it, and the first
that fails ends the pass. -/
def pass (s : Store) : List FlushTask → Option Fault × Store
  | [] => (none, s)
  | task :: rest =>
    match s.flushTable task with
    | (some fault, s) => (some fault, s)
    | (none, s) => pass { s with backlog := rest }.compactIfCrowded rest

def drain (s : Store) : Option Fault × Store := s.pass s.backlog

/-- Passes over the backlog until it is empty, at most `passes` of them. -/
def drainWithin (s : Store) : (passes : Nat) → Option Fault × Store
  | 0 => (none, s)
  | passes + 1 =>
    match s.drain with
    | (none, s) => (none, s)
    | (some fault, s) => if passes = 0 then (some fault, s) else s.drainWithin passes

/-- Passes over the backlog after the final task. -/
def finalPasses : Nat := 3

/-- The end of the worker: it leaves no backlog behind, done or not. -/
def finish (s : Store) : Option Fault × Store :=
  let (outcome, s) := s.drainWithin finalPasses
  (outcome, { s with backlog := [] })

/-! ### The queue -/

/-- Receives tasks, which are the queue: after each comes a pass over the backlog, and after
the final one the worker ends with its outcome. -/
def receive (s : Store) : List FlushTask → Option Fault × Store
  | [] => (none, s)
  | task :: rest =>
    let s := { s with
      memory := { s.memory with queue := rest }
      backlog := s.backlog ++ [task] }
    if task.final then s.finish else s.drain.2.receive rest

/-- Lets the worker receive all that is queued. -/
def work (s : Store) : Store := (s.receive s.memory.queue).2

/-- Lets the worker run until it waits for something outside: all tasks are received, and the
backlog is passed over once more. -/
def settle (s : Store) : Store := s.work.drain.2

/-! ### Writing, flushing and closing -/

/-- Writes a cell. -/
def write (s : Store) (cell : Cell) : Except Fault Store := do
  return { s with memory := ← s.memory.write cell }

def put (s : Store) (key data : Bytes) (stamp : Stamp) : Except Fault Store :=
  s.write ⟨key, .present stamp data⟩

def delete (s : Store) (key : Bytes) (stamp : Stamp) : Except Fault Store :=
  s.write ⟨key, .tombstone stamp⟩

/-- Rotates the active table and waits until its generation is acknowledged. -/
def flush (s : Store) : Option Fault × Store :=
  match s.memory.forceRotate with
  | .error fault => (some fault, s)
  | .ok (none, _) => (none, s)
  | .ok (some generation, memory) =>
    let s := { s with memory }.settle
    if s.memory.pending.contains generation then (some (.flushTimeout generation), s)
    else (none, s)

/-- Refuses later writes and waits for the worker to end. Closing once more does nothing. -/
def close (s : Store) : Option Fault × Store :=
  if s.memory.closed then (none, s)
  else
    match s.memory.close with
    | .error fault => (some fault, s)
    | .ok memory => { s with memory }.receive memory.queue

end Store

end TableStore

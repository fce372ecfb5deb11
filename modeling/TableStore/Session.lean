import TableStore.Store.Flush
import TableStore.Store.Read

/-! A session with one directory, in which stores are opened one after another and range
cursors stay readable beyond the store they were opened on. Between two steps the flush worker
runs until it waits; in a hurry it does what is queued, but the time for another pass over
what failed does not come. -/

namespace TableStore

/-- A range cursor; the memory of its store is kept with it once that store is gone. -/
structure HeldCursor where
  cursor : RangeCursor
  memory : Option Memory

/-- Without a store there is the disk alone. -/
inductive Desk
  | idle (disk : Disk)
  | running (store : Store)

structure Session where
  desk : Desk
  cursors : List (Nat × HeldCursor)
  /-- Whether the steps follow each other before the worker tries again what failed. -/
  hurried : Bool := false

namespace Session

def start (disk : Disk) : Session := { desk := .idle disk, cursors := [] }

def store? (s : Session) : Option Store :=
  match s.desk with
  | .idle _ => none
  | .running store => some store

def disk (s : Session) : Disk :=
  match s.desk with
  | .idle disk => disk
  | .running store => store.disk

/-- Lets the worker of a running store run until it waits. -/
def rest (s : Session) : Session :=
  match s.desk with
  | .idle _ => s
  | .running store =>
    { s with desk := .running (if s.hurried then store.work else store.settle) }

/-- Changes the disk from outside. -/
def onDisk {α : Type} (s : Session) (change : Disk → α × Disk) : α × Session :=
  match s.desk with
  | .idle disk =>
    let (answer, disk) := change disk
    (answer, { s with desk := .idle disk })
  | .running store =>
    let (answer, disk) := change store.disk
    (answer, { s with desk := .running { store with disk } }.rest)

/-- One operation of the running store, if there is one. -/
def onStore {α : Type} (s : Session) (operation : Store → α × Store) : Option α × Session :=
  match s.desk with
  | .idle _ => (none, s)
  | .running store =>
    let (answer, store) := operation store
    (some answer, { s with desk := .running store }.rest)

/-- Leaves a store; its cursors keep its memory. -/
def leave (s : Session) (store : Store) : Session :=
  { s with
    desk := .idle store.disk
    cursors := s.cursors.map fun c =>
      (c.1, { c.2 with memory := some (c.2.memory.getD store.memory) }) }

/-- Forgets the running store as it is. -/
def crash (s : Session) : Session :=
  match s.desk with
  | .idle _ => s
  | .running store => s.leave store

/-- Closes the running store and leaves it. -/
def drop (s : Session) : Session :=
  match s.desk with
  | .idle _ => s
  | .running store => s.leave store.close.2

/-- Drops the running store and opens another. -/
def load (s : Session) (settings : Settings) : Option Fault × Session :=
  let s := s.drop
  match Store.load settings s.disk with
  | .error fault => (some fault, s)
  | .ok store => (none, { s with desk := .running store })

/-- Opens a range cursor under a number; a cursor that had the number is forgotten. -/
def iterate (s : Session) (id : Nat) (start : Bytes) (limit : Option Bytes) :
    Option (Option Fault) × Session :=
  match s.store? with
  | none => (none, s)
  | some store =>
    match store.range start limit with
    | .error fault => (some (some fault), s)
    | .ok cursor =>
      (some none, { s with
        cursors := (id, ⟨cursor, none⟩) :: s.cursors.filter fun c => c.1 ≠ id })

/-- One step of the cursor with a number, if there is one. -/
def next (s : Session) (id : Nat) :
    Option (Option (Except Fault (Bytes × Bytes))) × Session :=
  match s.cursors.find? fun c => c.1 == id with
  | none => (none, s)
  | some (_, held) =>
    match held.memory.or (s.store?.map Store.memory) with
    | none => (none, s)
    | some memory =>
      let (answer, cursor) := held.cursor.next memory
      (some answer, { s with
        cursors := s.cursors.map fun c => if c.1 = id then (id, { held with cursor }) else c })

end Session

end TableStore

import TableStore.Store.Basic

/-! Reading a store. The newest version of a key is sought in memory and then in the tables
from the oldest generation to the newest, the last among equals standing. A range cursor
merges the tables in that order with the memory behind them; it yields the live pairs between
its bounds, passes faults on, and sees writes made after it was opened as far as it has not
read past them. -/

namespace TableStore

/-- One source of a range cursor: the cells of a table, or a cursor over the memory tables. -/
inductive RangeSource
  | table (items : List Item)
  | memory (cursor : Merge BufferPlace)

/-- Reading a source, with the memory tables as they are now. -/
def RangeSource.feed (m : Memory) : Feed RangeSource where
  pull
    | table [] => none
    | table (item :: items) => some (item, table items)
    | memory cursor => (m.next cursor).map fun step => (step.1, memory step.2)
  remaining
    | table items => items.length
    | memory cursor => cursor.remaining m.feed
  remaining_lt := by
    intro s i s' h
    cases s with
    | table items =>
      cases items with
      | nil => simp at h
      | cons item items =>
        simp only [Option.some.injEq, Prod.mk.injEq] at h
        simp [← h.2]
    | memory cursor =>
      obtain ⟨step, hs, he⟩ := Option.map_eq_some_iff.mp h
      simp only [Prod.mk.injEq] at he
      rw [← he.2]
      exact Merge.remaining_pull m.feed hs

/-- A cursor over the live pairs with keys below `limit`, if there is one. -/
structure RangeCursor where
  merge : Merge RangeSource
  limit : Option Bytes
  ended : Bool := false

namespace RangeCursor

/-- Reads on to the next live pair, fault or end. -/
def advance (m : Memory) (limit : Option Bytes) (merge : Merge RangeSource) :
    Option (Except Fault (Bytes × Bytes)) × RangeCursor :=
  match _h : merge.pull (RangeSource.feed m) with
  | none => (none, { merge, limit })
  | some (.error fault, next) => (some (.error fault), { merge := next, limit })
  | some (.ok cell, next) =>
    if limit.any fun l => ¬ cell.key < l then (none, { merge := next, limit, ended := true })
    else
      match cell.version with
      | .present _ data => (some (.ok (cell.key, data)), { merge := next, limit })
      | _ => advance m limit next
termination_by merge.remaining (RangeSource.feed m)
decreasing_by exact Merge.remaining_pull _ _h

/-- One step of a cursor, with the memory tables as they are now. -/
def next (m : Memory) (cursor : RangeCursor) :
    Option (Except Fault (Bytes × Bytes)) × RangeCursor :=
  if cursor.ended then (none, cursor) else advance m cursor.limit cursor.merge

theorem remaining_advance (m : Memory) (limit : Option Bytes) (merge : Merge RangeSource)
    {answer : Except Fault (Bytes × Bytes)} (h : (advance m limit merge).1 = some answer) :
    (advance m limit merge).2.merge.remaining (RangeSource.feed m) <
      merge.remaining (RangeSource.feed m) := by
  fun_induction advance m limit merge with
  | case1 => simp at h
  | case2 merge fault next hp => exact Merge.remaining_pull _ hp
  | case3 => simp at h
  | case4 merge cell next hp => exact Merge.remaining_pull _ hp
  | case5 merge cell next hp hl hv ih => exact Nat.lt_trans (ih h) (Merge.remaining_pull _ hp)

/-- All that a cursor still yields, with the memory tables as they are now. -/
def toList (m : Memory) (cursor : RangeCursor) : List (Except Fault (Bytes × Bytes)) :=
  if cursor.ended then []
  else
    match _h : advance m cursor.limit cursor.merge with
    | (none, _) => []
    | (some answer, next) => answer :: toList m next
termination_by cursor.merge.remaining (RangeSource.feed m)
decreasing_by
  have := remaining_advance m cursor.limit cursor.merge (congrArg Prod.fst _h)
  rwa [_h] at this

end RangeCursor

namespace Store

/-- The newest version of a key in memory and on disk. -/
def version (s : Store) (key : Bytes) : Except Fault Version := do
  let found ← s.tables.values.mapM (·.get? key)
  return Version.newest (s.memory.get key :: found.filterMap (·.map Cell.version))

/-- The live value of a key. -/
def get (s : Store) (key : Bytes) : Except Fault (Option Bytes) := do
  return (← s.version key).data?

/-- Opens a cursor over the live pairs from `start` on and below `limit`. -/
def range (s : Store) (start : Bytes) (limit : Option Bytes) : Except Fault RangeCursor := do
  let memory := s.memory.cursor start
  let tables ← s.tables.values.mapM (·.scan start)
  let sources := tables.map RangeSource.table ++ [RangeSource.memory memory]
  return { merge := Merge.start (RangeSource.feed s.memory) sources, limit }

end Store

end TableStore

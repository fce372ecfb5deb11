import TableStore.Memory.Basic
import TableStore.Merge.Basic

/-! Cursors over the memory tables. A cursor names its tables by generation and finds its place
in each by key, so it reads what the tables hold at the moment of each step, also after they
have been rotated or flushed. -/

namespace TableStore

/-- A place in the memory table of a generation. -/
structure BufferPlace where
  generation : UInt64
  bound : Bound
  deriving DecidableEq

namespace Memory

/-- Reading at a place, with the tables as they are now. -/
def feed (m : Memory) : Feed BufferPlace where
  pull place := do
    let buffer ← m.buffer? place.generation
    let cell ← buffer.first? place.bound
    return (.ok cell, { place with bound := .above cell.key })
  remaining place :=
    match m.buffer? place.generation with
    | some buffer => (buffer.cellsFrom place.bound).length
    | none => 0
  remaining_lt := by
    intro s i s' h
    cases hb : m.buffer? s.generation with
    | none => simp [hb] at h
    | some buffer =>
      cases hc : buffer.first? s.bound with
      | none => simp [hb, hc] at h
      | some cell =>
        simp only [hb, hc, Option.bind_eq_bind, Option.bind_some, Option.pure_def,
          Option.some.injEq, Prod.mk.injEq] at h
        rw [← h.2]
        simpa [hb] using Buffer.length_cellsFrom_lt hc

/-- The generations of the readable tables, oldest first and the active one last. -/
def generations (m : Memory) : List UInt64 := m.pending.keys ++ [m.activeGeneration]

/-- A cursor over the cells whose keys are at least `key`. -/
def cursor (m : Memory) (key : Bytes) : Merge BufferPlace :=
  Merge.start m.feed (m.generations.map fun g => ⟨g, .atLeast key⟩)

/-- One step of a cursor. -/
def next (m : Memory) (cursor : Merge BufferPlace) : Option (Item × Merge BufferPlace) :=
  cursor.pull m.feed

/-- The newest version of every key that is at least `key`, in order. -/
def scan (m : Memory) (key : Bytes) : List Item := (Merge.toFeed m.feed).toList (m.cursor key)

end Memory

end TableStore

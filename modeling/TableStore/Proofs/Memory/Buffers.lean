import Mathlib.Data.List.Basic
import TableStore.Memory.Cursor
import TableStore.Proofs.Merge.Feeds
import TableStore.Proofs.Newest

/-! What memory tables hold. A buffer is sound when its cells ascend and its filter knows all
their keys, which writing preserves; then the filter never hides a key, a write is found under its
key, and a cursor over the buffer reads its cells in order. -/

namespace TableStore

namespace Buffer

/-- Cells ascend and the filter knows their keys. -/
structure IsSound (b : Buffer) : Prop where
  ascending : Ascending b.cells
  mayContain : ∀ cell ∈ b.cells, b.filter.mayContain cell.key = true

theorem isSound_empty (filterBits : Nat) : (empty filterBits).IsSound :=
  ⟨List.Pairwise.nil, fun _ h => absurd h List.not_mem_nil⟩

theorem IsSound.write {b : Buffer} (h : b.IsSound) (cell : Cell) : (b.write cell).IsSound where
  ascending := ascending_place cell h.ascending
  mayContain := by
    intro c hc
    rcases mem_place hc with rfl | hc
    · exact b.filter.mayContain_insert_self _
    · exact Filter.mayContain_insert (h.mayContain c hc) _

theorem IsSound.get? {b : Buffer} (h : b.IsSound) (key : Bytes) :
    b.get? key = lookup key b.cells := by
  unfold Buffer.get?
  split
  · rfl
  · rename_i hf
    symm
    rw [lookup_eq_none_iff]
    intro c hc he
    exact hf (he ▸ h.mayContain c hc)

theorem lookup_write (b : Buffer) (cell : Cell) (key : Bytes) :
    lookup key (b.write cell).cells =
      if cell.key = key then some cell.version else lookup key b.cells :=
  lookup_place cell b.cells key

/-! ### Cursors -/

theorem first?_eq_head? (b : Buffer) (bound : Bound) :
    b.first? bound = (b.cellsFrom bound).head? := List.head?_filter.symm

/-- Behind the first cell from a bound on come the others from that bound on. -/
theorem cellsFrom_above {b : Buffer} (h : Ascending b.cells) {bound : Bound} {cell : Cell}
    {rest : List Cell} (hc : b.cellsFrom bound = cell :: rest) :
    b.cellsFrom (.above cell.key) = rest := by
  obtain ⟨front, back, hs, hfront, hadmit, hrest⟩ := List.filter_eq_cons_iff.mp hc
  rw [hs] at h
  obtain ⟨-, hback, hcross⟩ := List.pairwise_append.mp h
  have hkeep : ∀ c ∈ back, (Bound.above cell.key).Admits c.key :=
    fun c hm => List.rel_of_pairwise_cons hback hm
  have hall : ∀ c ∈ back, bound.Admits c.key := by
    intro c hm
    have hlt : cell.key < c.key := hkeep c hm
    have hself : bound.Admits cell.key := by simpa using hadmit
    cases bound with
    | atLeast start => exact fun hl => hself (List.lt_trans hlt hl)
    | above start => exact List.lt_trans hself hlt
  rw [← hrest, List.filter_eq_self.mpr (fun c hm => by simpa using hall c hm), cellsFrom, hs,
    List.filter_append, List.filter_cons, List.filter_eq_nil_iff.mpr, List.nil_append, if_neg,
    List.filter_eq_self.mpr fun c hm => by simpa using hkeep c hm]
  · have hself : ¬ (Bound.above cell.key).Admits cell.key := List.lt_irrefl cell.key
    rw [decide_eq_false hself]
    exact Bool.false_ne_true
  · intro c hm
    have hlt : c.key < cell.key := hcross c hm cell List.mem_cons_self
    have hnot : ¬ (Bound.above cell.key).Admits c.key := List.not_lt.mpr (List.le_of_lt hlt)
    simpa using hnot

end Buffer

namespace Memory

/-- A step of a cursor over the buffer of a generation. -/
theorem pull_feed {m : Memory} {generation : UInt64} {b : Buffer}
    (hb : m.buffer? generation = some b) (bound : Bound) :
    m.feed.pull ⟨generation, bound⟩ =
      (b.first? bound).map fun cell => (.ok cell, ⟨generation, .above cell.key⟩) := by
  show ((m.buffer? generation).bind fun buffer => (buffer.first? bound).bind _) = _
  rw [hb, Option.bind_some]
  cases b.first? bound <;> rfl

/-- A cursor over the buffer of a generation reads its cells from the bound on. -/
theorem toList_feed {m : Memory} {generation : UInt64} {b : Buffer}
    (hb : m.buffer? generation = some b) (ha : Ascending b.cells) (bound : Bound) :
    m.feed.toList ⟨generation, bound⟩ = (b.cellsFrom bound).map .ok := by
  generalize hl : b.cellsFrom bound = cells
  induction cells generalizing bound with
  | nil =>
    have hend : m.feed.pull ⟨generation, bound⟩ = none := by
      rw [pull_feed hb, b.first?_eq_head?, hl]
      rfl
    rw [Feed.toList_of_pull_none hend]
    rfl
  | cons cell rest ih =>
    have hstep : m.feed.pull ⟨generation, bound⟩ =
        some (.ok cell, ⟨generation, .above cell.key⟩) := by
      rw [pull_feed hb, b.first?_eq_head?, hl]
      rfl
    rw [Feed.toList_of_pull_some hstep, ih _ (Buffer.cellsFrom_above ha hl)]
    rfl

/-! ### Versions in memory -/

/-- The versions that the readable tables hold for a key, oldest table first. -/
def versions (m : Memory) (key : Bytes) : List Version :=
  m.tables.filterMap fun b => lookup key b.cells

theorem isSound_of_mem_empty {threshold filterBits : Nat} {generation next : UInt64} {b : Buffer}
    (hb : b ∈ (empty threshold filterBits generation next).tables) : b.IsSound := by
  have hb : b ∈ [Buffer.empty filterBits] := hb
  exact List.mem_singleton.mp hb ▸ Buffer.isSound_empty filterBits

theorem get_eq {m : Memory} (h : ∀ b ∈ m.tables, b.IsSound) (key : Bytes) :
    m.get key = Version.newest (m.versions key) := by
  have hall : m.tables.filterMap (·.get? key) = m.versions key := by
    exact List.filterMap_congr fun b hb => (h b hb).get? key
  rw [get, hall]

end Memory

end TableStore

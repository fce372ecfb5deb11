import TableStore.Proofs.Memory.Order
import TableStore.Proofs.Merge.Live

/-! Cursors over memory. A cursor reads the newest versions in the readable tables when it is
opened, and it goes on while the memory changes. It knows its tables by their generations, which no
other table takes, so it finds each again after it was rotated or flushed; and it seeks its place
in a table behind the cell read last, so a cell that is written there is read, in its order. -/

namespace TableStore

/-! ### Opening -/

/-- What is held under a key by lists of which only the cells from `start` on are read. -/
theorem filterMap_lookup_filter {α : Type} (cells : α → List Cell) (start key : Bytes)
    (l : List α) :
    (l.map fun a => (cells a).filter fun c => ¬ c.key < start).filterMap (lookup key) =
      if key < start then [] else l.filterMap fun a => lookup key (cells a) := by
  rw [List.filterMap_map]
  have hfun : (lookup key ∘ fun a => (cells a).filter fun c => ¬ c.key < start) =
      fun a => if key < start then none else lookup key (cells a) :=
    funext fun a =>
      (lookup_filter (fun other => ¬ other < start) key (cells a)).trans (ite_not _ _ _)
  rw [hfun]
  by_cases hk : key < start
  · simp [hk]
  · simp [hk]

namespace Memory

/-- Every readable table is sound, and a cursor that names a pending table finds it. -/
structure IsSound (m : Memory) : Prop where
  buffers : ∀ b ∈ m.tables, b.IsSound
  active : m.pending.find? m.activeGeneration = none

theorem isSound_empty (threshold filterBits : Nat) (generation next : UInt64) :
    (empty threshold filterBits generation next).IsSound where
  buffers := fun _ => isSound_of_mem_empty
  active := Generations.find?_empty _

theorem IsSound.buffer? {m : Memory} (h : m.IsSound) {generation : UInt64} {b : Buffer}
    (hb : m.pending.find? generation = some b) : m.buffer? generation = some b := by
  have hne : generation ≠ m.activeGeneration := by
    intro he
    rw [he, h.active] at hb
    simp at hb
  rw [Memory.buffer?, if_neg hne, hb]
  rfl

theorem IsOrdered.isSound {m : Memory} (h : m.IsOrdered) : m.IsSound :=
  ⟨h.buffers, h.active_not_pending⟩

/-- The lists that a cursor merges are the cells of the readable tables from its key on. -/
theorem IsSound.map_toList {m : Memory} (h : m.IsSound) (start : Bytes) :
    (m.generations.map fun g => m.feed.toList ⟨g, .atLeast start⟩) =
      m.tables.map fun b => (b.cells.filter fun c => ¬ c.key < start).map .ok := by
  unfold generations tables Generations.keys Generations.values
  simp only [List.map_append, List.map_map, List.map_cons, List.map_nil]
  congr 1
  · refine List.map_congr_left ?_
    rintro ⟨generation, b⟩ he
    have hb : m.buffer? generation = some b := h.buffer? (Generations.mem_entries_iff.mp he)
    have hs : b.IsSound := h.buffers b (List.mem_append_left _ (List.mem_map_of_mem he))
    exact toList_feed hb hs.ascending _
  · have hb : m.buffer? m.activeGeneration = some m.active := by rw [Memory.buffer?, if_pos rfl]
    have hs : m.active.IsSound := h.buffers _ (List.mem_append_right _ List.mem_cons_self)
    rw [toList_feed hb hs.ascending]
    rfl

/-- What a cursor over memory reads: under each key from `start` on the newest version. -/
theorem IsSound.toList_cursor {m : Memory} (h : m.IsSound) (start : Bytes) :
    ∃ cells, (Merge.toFeed m.feed).toList (m.cursor start) = cells.map .ok ∧ Ascending cells ∧
      ∀ key, lookup key cells =
        if key < start then none else Version.newest? (m.versions key) := by
  have hasc : ∀ s ∈ m.tables.map fun b => b.cells.filter fun c => ¬ c.key < start,
      Ascending s := by
    intro s hs
    obtain ⟨b, hb, rfl⟩ := List.mem_map.mp hs
    exact (h.buffers b hb).ascending.filter _
  obtain ⟨cells, hmerge, hcells, hlook⟩ := mergeLists_ascending hasc
  refine ⟨cells, ?_, hcells, fun key => ?_⟩
  · rw [cursor, Merge.toList_start, List.map_map]
    rw [← hmerge, List.map_map]
    congr 1
    exact h.map_toList start
  · rw [hlook, filterMap_lookup_filter, versions]
    split <;> rfl

end Memory

/-! ### Reading on while the memory changes -/

namespace Memory

variable {m m' m'' : Memory} {written : Option Cell} {generation : UInt64} {b : Buffer}

/-- A place right behind a cell, in a table that is there and ascends. -/
def Follows (m : Memory) (head : Cell) (place : BufferPlace) : Prop :=
  place.bound = .above head.key ∧ place.generation < m.nextGeneration ∧
    ∃ b, m.buffer? place.generation = some b ∧ Ascending b.cells

theorem opens_feed (hb : m.buffer? generation = some b) (ha : Ascending b.cells)
    (hlt : generation < m.nextGeneration) (bound : Bound) :
    m.feed.Opens m.Follows ⟨generation, bound⟩ := by
  rw [Feed.Opens, pull_feed hb]
  cases b.first? bound with
  | none => exact Or.inl rfl
  | some cell => exact Or.inr ⟨cell, _, rfl, rfl, hlt, b, hb, ha⟩

theorem ascends_feed (m : Memory) : m.feed.Ascends m.Follows := by
  rintro head ⟨generation, bound⟩ ⟨rfl, hlt, b, hb, ha⟩
  rw [pull_feed hb]
  cases hc : b.first? (.above head.key) with
  | none => exact Or.inl rfl
  | some cell =>
    have hahead : (Bound.above head.key).Admits cell.key := by simpa using List.find?_some hc
    exact Or.inr ⟨cell, _, rfl, hahead, rfl, hlt, b, hb, ha⟩

/-- The lanes of a cursor that is opened follow their heads. -/
theorem IsOrdered.follows_cursor (h : m.IsOrdered) (start : Bytes) :
    (m.cursor start).Follows m.Follows := by
  refine Merge.follows_start fun place hp => ?_
  obtain ⟨generation, hg, rfl⟩ := List.mem_map.mp hp
  rw [generations, List.mem_append, List.mem_singleton] at hg
  rcases hg with hg | rfl
  · obtain ⟨⟨generation, b⟩, he, rfl⟩ := List.mem_map.mp hg
    have hfound := h.isSound.buffer? (Generations.mem_entries_iff.mp he)
    have hb := h.buffers b (List.mem_append_left _ (List.mem_map_of_mem he))
    exact opens_feed hfound hb.ascending (UInt64.lt_trans (h.pending_lt _ he) h.active_lt) _
  · have hb := h.buffers m.active (List.mem_append_right _ List.mem_cons_self)
    exact opens_feed m.buffer?_active hb.ascending h.active_lt _

/-- All tables of a memory are there in another one, with a cell more in one of them perhaps. -/
def Carries (m m' : Memory) (written : Option Cell) : Prop :=
  ∀ generation b, generation < m.nextGeneration → m.buffer? generation = some b →
    generation < m'.nextGeneration ∧ ∃ b', m'.buffer? generation = some b' ∧
      (b' = b ∨ ∃ w ∈ written, b' = b.write w)

theorem carries_of_eq (hn : m.nextGeneration ≤ m'.nextGeneration)
    (h : ∀ generation < m.nextGeneration, m'.buffer? generation = m.buffer? generation) :
    m.Carries m' written :=
  fun generation b hlt hb =>
    ⟨UInt64.lt_of_lt_of_le hlt hn, b, (h generation hlt).trans hb, Or.inl rfl⟩

theorem Carries.refl (m : Memory) : m.Carries m written :=
  carries_of_eq (UInt64.le_refl _) fun _ _ => rfl

theorem Carries.trans (h : m.Carries m' written) (h' : m'.Carries m'' none) :
    m.Carries m'' written := by
  intro generation b hlt hb
  obtain ⟨hlt', b', hb', hwritten⟩ := h generation b hlt hb
  obtain ⟨hlt'', b'', hb'', hsame⟩ := h' generation b' hlt' hb'
  have heq : b'' = b' := hsame.resolve_right (by simp)
  exact ⟨hlt'', b', heq ▸ hb'', hwritten⟩

theorem carries_writeOnly (m : Memory) (cell : Cell) :
    m.Carries (m.writeOnly cell) (some cell) := by
  intro generation b hlt hb
  refine ⟨hlt, ?_⟩
  by_cases hg : generation = m.activeGeneration
  · rw [hg, buffer?_active, Option.some.injEq] at hb
    exact ⟨_, hg ▸ (m.writeOnly cell).buffer?_active, Or.inr ⟨cell, rfl, hb ▸ rfl⟩⟩
  · exact ⟨b, (buffer?_writeOnly cell hg).trans hb, Or.inl rfl⟩

theorem carries_turn (hr : m.nextGeneration.toNat + 1 < UInt64.size) (final : Bool) :
    m.Carries (m.turn final) written :=
  carries_of_eq (UInt64.le_of_lt (lt_next_of_room hr)) fun _ hlt =>
    buffer?_turn final (UInt64.ne_of_lt hlt)

theorem carries_flushed (m : Memory) (generation : UInt64) :
    m.Carries (m.flushed generation) written :=
  carries_of_eq (UInt64.le_refl _) fun other _ => buffer?_flushed m generation other

theorem carries_spend (hr : m.nextGeneration.toNat + 1 < UInt64.size) :
    m.Carries m.spend written :=
  carries_of_eq (UInt64.le_of_lt (lt_next_of_room hr)) fun _ _ => rfl

theorem carries_write {cell : Cell} (hr : m.nextGeneration.toNat + 1 < UInt64.size)
    (h : m.write cell = .ok m') : m.Carries m' (some cell) := by
  obtain ⟨-, rfl | ⟨-, rfl⟩⟩ := write_cases h
  · exact carries_writeOnly m cell
  · exact (carries_writeOnly m cell).trans (carries_turn (m := m.writeOnly cell) hr false)

theorem carries_forceRotate {found : Option UInt64}
    (hr : m.nextGeneration.toNat + 1 < UInt64.size) (h : m.forceRotate = .ok (found, m')) :
    m.Carries m' written := by
  obtain ⟨-, ⟨-, -, rfl⟩ | ⟨-, -, -, rfl⟩⟩ := forceRotate_cases h
  · exact .refl m'
  · exact carries_turn hr false

theorem carries_close (h : m.close = .ok m') : m.Carries m' written := by
  obtain ⟨-, rfl⟩ | ⟨-, hr, rfl⟩ := close_cases h
  · exact .refl m'
  · exact carries_turn hr true

theorem cells_feed {place : BufferPlace} (hb : m.buffer? place.generation = some b)
    (ha : Ascending b.cells) : m.feed.cells place = b.cellsFrom place.bound := by
  rw [Feed.cells, toList_feed hb ha, readable_map_ok]

/-- Places in a memory are places in one that carries it on. -/
theorem Carries.feed (h : m.Carries m' written) :
    m.feed.Carries m'.feed written m.Follows m'.Follows := by
  rintro head ⟨generation, bound⟩ ⟨rfl, hlt, b, hb, ha⟩
  obtain ⟨hlt', b', hb', hsame⟩ := h generation b hlt hb
  have ha' : Ascending b'.cells := by
    rcases hsame with rfl | ⟨w, -, rfl⟩
    · exact ha
    · exact Buffer.ascending_place w ha
  refine ⟨⟨rfl, hlt', b', hb', ha'⟩, fun _ key => ?_⟩
  rw [cells_feed hb ha, cells_feed hb' ha', lookup_cons, lookup_cons]
  split
  · exact Or.inl rfl
  · rw [Buffer.cellsFrom, Buffer.cellsFrom, lookup_filter, lookup_filter]
    by_cases hk : (Bound.above head.key).Admits key
    · rw [if_pos hk, if_pos hk]
      rcases hsame with rfl | ⟨w, hw, rfl⟩
      · exact Or.inl rfl
      · rw [Buffer.lookup_write]
        by_cases he : w.key = key
        · exact Or.inr ⟨w, hw, he, if_pos he, head, List.mem_cons_self, hk⟩
        · exact Or.inl (if_neg he)
    · rw [if_neg hk, if_neg hk]
      exact Or.inl rfl

end Memory

end TableStore

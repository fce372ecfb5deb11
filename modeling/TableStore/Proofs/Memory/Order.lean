import TableStore.Proofs.Generations
import TableStore.Proofs.Memory.Buffers
import TableStore.Proofs.Outcome

/-! The order among the generations of a memory. The pending tables come before the active one and
that before the next; a generation is spent when it was handed out and is neither active nor
pending. Every change of a memory keeps the order and leaves what is spent spent. -/

namespace TableStore

namespace Memory

/-- Writes a cell and rotates nothing. -/
def writeOnly (m : Memory) (cell : Cell) : Memory :=
  { m with active := m.active.write cell }

/-- Hands out the next generation, of which there is one. -/
def spend (m : Memory) : Memory := { m with nextGeneration := m.nextGeneration + 1 }

/-- Rotates an open memory, which the final task closes. -/
def turn (m : Memory) (final : Bool) : Memory :=
  { m.spend with
    active := Buffer.empty m.filterBits
    activeGeneration := m.nextGeneration
    pending := m.pending.insert m.activeGeneration m.active
    queue := m.queue ++ [⟨m.activeGeneration, m.active, final⟩]
    closed := final }

/-- A generation that was handed out and is neither active nor pending. -/
structure IsSpent (m : Memory) (generation : UInt64) : Prop where
  lt_next : generation < m.nextGeneration
  ne_active : generation ≠ m.activeGeneration
  not_pending : m.pending.find? generation = none

/-- Pending tables come before the active one and that before the next, all are sound, and a
closed memory has nothing in its active table. -/
structure IsOrdered (m : Memory) : Prop where
  pending_lt : ∀ e ∈ m.pending.entries, e.1 < m.activeGeneration
  active_lt : m.activeGeneration < m.nextGeneration
  buffers : ∀ b ∈ m.tables, b.IsSound
  closed : m.closed = true → m.active.cells = []

variable {m : Memory}

theorem IsOrdered.active_not_pending (h : m.IsOrdered) :
    m.pending.find? m.activeGeneration = none := by
  rw [Generations.find?_eq_none_iff]
  intro e he hg
  exact UInt64.lt_irrefl _ (hg ▸ h.pending_lt e he)

theorem toNat_next_of_room {n : UInt64} (h : n.toNat + 1 < UInt64.size) :
    (n + 1).toNat = n.toNat + 1 := by
  have hsize : UInt64.size = 2 ^ 64 := rfl
  rw [UInt64.toNat_add, UInt64.toNat_one]
  omega

theorem lt_next_of_room {n : UInt64} (h : n.toNat + 1 < UInt64.size) : n < n + 1 := by
  rw [UInt64.lt_iff_toNat_lt, toNat_next_of_room h]
  omega

/-! ### Counting generations -/

/-- The next generation exists unless it was the last one. -/
theorem generationAfter_eq_ok {n after : UInt64} :
    generationAfter n = .ok after ↔ n.toNat + 1 < UInt64.size ∧ after = n + 1 := by
  unfold generationAfter
  split
  · rename_i h
    rw [Except.ok.injEq, eq_comm, and_iff_right h]
  · rename_i h
    exact iff_of_false nofun fun hand => h hand.1

theorem generationAfter_of_room {n : UInt64} (h : n.toNat + 1 < UInt64.size) :
    generationAfter n = .ok (n + 1) := generationAfter_eq_ok.mpr ⟨h, rfl⟩

theorem generationAfter_of_last {n : UInt64} (h : ¬ n.toNat + 1 < UInt64.size) :
    generationAfter n = .error .overflow := if_neg h

theorem startAt_of_room (threshold filterBits : Nat) {generation : UInt64}
    (h : generation.toNat + 1 < UInt64.size) : startAt threshold filterBits generation =
      .ok (empty threshold filterBits generation (generation + 1)) := by
  rw [startAt, generationAfter_of_room h]
  rfl

theorem startAt_of_last (threshold filterBits : Nat) {generation : UInt64}
    (h : ¬ generation.toNat + 1 < UInt64.size) :
    startAt threshold filterBits generation = .error .overflow := by
  rw [startAt, generationAfter_of_last h]
  rfl

theorem allocate_of_room (h : m.nextGeneration.toNat + 1 < UInt64.size) :
    m.allocate = .ok (m.nextGeneration, m.spend) := by
  rw [allocate, generationAfter_of_room h]
  rfl

theorem allocate_of_last (h : ¬ m.nextGeneration.toNat + 1 < UInt64.size) :
    m.allocate = .error .overflow := by
  rw [allocate, generationAfter_of_last h]
  rfl

theorem rotate_of_room (h : m.nextGeneration.toNat + 1 < UInt64.size) (final : Bool) :
    m.rotate final = .ok { m.turn final with closed := m.closed } := by
  rw [rotate, allocate_of_room h]
  rfl

theorem rotate_of_last (h : ¬ m.nextGeneration.toNat + 1 < UInt64.size) (final : Bool) :
    m.rotate final = .error .overflow := by
  rw [rotate, allocate_of_last h]
  rfl

/-- A rotation succeeds while there is a generation for the new table. -/
theorem rotate_eq_ok {m' : Memory} {final : Bool} :
    m.rotate final = .ok m' ↔ m.nextGeneration.toNat + 1 < UInt64.size ∧
      m' = { m.turn final with closed := m.closed } := by
  by_cases hr : m.nextGeneration.toNat + 1 < UInt64.size
  · rw [rotate_of_room hr, Except.ok.injEq, eq_comm, and_iff_right hr]
  · rw [rotate_of_last hr]
    exact iff_of_false nofun fun hand => hr hand.1

theorem rotate_eq_turn {m' : Memory} (hc : m.closed = false) (h : m.rotate false = .ok m') :
    m.nextGeneration.toNat + 1 < UInt64.size ∧ m' = m.turn false := by
  obtain ⟨hr, rfl⟩ := rotate_eq_ok.mp h
  refine ⟨hr, ?_⟩
  rw [hc]
  rfl

theorem rotate_eq_error {fault : Fault} {final : Bool} (h : m.rotate final = .error fault) :
    fault = .overflow ∧ ¬ m.nextGeneration.toNat + 1 < UInt64.size := by
  by_cases hr : m.nextGeneration.toNat + 1 < UInt64.size
  · simp [rotate_of_room hr] at h
  · rw [rotate_of_last hr, Except.error.injEq] at h
    exact ⟨h.symm, hr⟩

/-- An empty memory is in order when its generation is not the last one. -/
theorem isOrdered_empty (threshold filterBits : Nat) {generation : UInt64}
    (h : generation.toNat + 1 < UInt64.size) :
    (empty threshold filterBits generation (generation + 1)).IsOrdered where
  pending_lt := fun e he => by simp [empty, Generations.empty] at he
  active_lt := lt_next_of_room h
  buffers := fun _ => isSound_of_mem_empty
  closed := fun _ => rfl

/-- What comes before the generation of an empty memory is spent. -/
theorem isSpent_empty (threshold filterBits : Nat) {generation other : UInt64}
    (h : generation.toNat + 1 < UInt64.size) (hlt : other < generation) :
    (empty threshold filterBits generation (generation + 1)).IsSpent other where
  lt_next := UInt64.lt_trans hlt (lt_next_of_room h)
  ne_active := UInt64.ne_of_lt hlt
  not_pending := Generations.find?_empty _

/-! ### Changes of a memory -/

theorem entries_turn (h : m.IsOrdered) (final : Bool) :
    (m.turn final).pending.entries = m.pending.entries ++ [(m.activeGeneration, m.active)] :=
  m.pending.entries_insert_of_greatest m.active h.pending_lt

theorem find?_turn (m : Memory) (final : Bool) (generation : UInt64) :
    (m.turn final).pending.find? generation =
      if m.activeGeneration = generation then some m.active else m.pending.find? generation :=
  Generations.find?_insert _ _ _ _

theorem tables_turn (h : m.IsOrdered) (final : Bool) :
    (m.turn final).tables = m.tables ++ [Buffer.empty m.filterBits] := by
  have hactive : (m.turn final).active = Buffer.empty m.filterBits := rfl
  rw [tables, hactive, Generations.values, entries_turn h]
  simp [tables, Generations.values]

/-- A rotation changes nothing that the memory holds. -/
theorem versions_turn (h : m.IsOrdered) (final : Bool) (key : Bytes) :
    (m.turn final).versions key = m.versions key := by
  rw [versions, tables_turn h, List.filterMap_append]
  exact List.append_nil _

theorem IsOrdered.writeOnly (h : m.IsOrdered) (hc : m.closed = false) (cell : Cell) :
    (m.writeOnly cell).IsOrdered where
  pending_lt := h.pending_lt
  active_lt := h.active_lt
  buffers := by
    intro b hb
    rcases List.mem_append.mp hb with hb | hb
    · exact h.buffers b (List.mem_append_left _ hb)
    · rw [List.mem_singleton.mp hb]
      exact (h.buffers _ (List.mem_append_right _ List.mem_cons_self)).write cell
  closed := by
    intro hclosed
    rw [show (m.writeOnly cell).closed = m.closed from rfl, hc] at hclosed
    simp at hclosed

theorem IsOrdered.turn (h : m.IsOrdered) (hr : m.nextGeneration.toNat + 1 < UInt64.size)
    (final : Bool) : (m.turn final).IsOrdered where
  pending_lt := by
    intro e he
    show e.1 < m.nextGeneration
    rw [entries_turn h] at he
    rcases List.mem_append.mp he with he | he
    · exact UInt64.lt_trans (h.pending_lt e he) h.active_lt
    · rw [List.mem_singleton.mp he]
      exact h.active_lt
  active_lt := lt_next_of_room hr
  buffers := by
    intro b hb
    rw [tables_turn h] at hb
    rcases List.mem_append.mp hb with hb | hb
    · exact h.buffers b hb
    · rw [List.mem_singleton.mp hb]
      exact Buffer.isSound_empty _
  closed := fun _ => rfl

theorem mem_tables_flushed {generation : UInt64} {b : Buffer}
    (hb : b ∈ (m.flushed generation).tables) : b ∈ m.tables := by
  rcases List.mem_append.mp hb with hb | hb
  · obtain ⟨e, he, rfl⟩ := List.mem_map.mp hb
    exact List.mem_append_left _ (List.mem_map_of_mem (Generations.mem_entries_erase.mp he).1)
  · exact List.mem_append_right _ hb

theorem IsOrdered.flushed (h : m.IsOrdered) (generation : UInt64) :
    (m.flushed generation).IsOrdered where
  pending_lt := fun e he => h.pending_lt e (Generations.mem_entries_erase.mp he).1
  active_lt := h.active_lt
  buffers := fun b hb => h.buffers b (mem_tables_flushed hb)
  closed := h.closed

theorem IsOrdered.spend (h : m.IsOrdered) (hr : m.nextGeneration.toNat + 1 < UInt64.size) :
    m.spend.IsOrdered where
  pending_lt := h.pending_lt
  active_lt := UInt64.lt_trans h.active_lt (lt_next_of_room hr)
  buffers := h.buffers
  closed := h.closed

/-! ### What the operations do -/

/-- A write goes to the active table, which may be rotated after it if there is a generation for
another. -/
theorem write_cases {m' : Memory} {cell : Cell} (h : m.write cell = .ok m') :
    m.closed = false ∧ (m' = m.writeOnly cell ∨
      m.nextGeneration.toNat + 1 < UInt64.size ∧ m' = (m.writeOnly cell).turn false) := by
  unfold write at h
  by_cases hc : m.closed = true
  · simp [hc] at h
  · rw [if_neg hc] at h
    have hopen : m.closed = false := by simpa using hc
    refine ⟨hopen, ?_⟩
    dsimp only at h
    split at h
    · exact Or.inr (rotate_eq_turn (m := m.writeOnly cell) hopen h)
    · exact Or.inl (Except.ok.inj h).symm

theorem write_eq_error {cell : Cell} {fault : Fault} (h : m.write cell = .error fault) :
    fault = .closed ∧ m.closed = true ∨
      fault = .overflow ∧ ¬ m.nextGeneration.toNat + 1 < UInt64.size := by
  unfold write at h
  split at h
  · rename_i hc
    exact Or.inl ⟨(Except.error.inj h).symm, hc⟩
  · dsimp only at h
    split at h
    · exact Or.inr (rotate_eq_error (m := m.writeOnly cell) h)
    · simp at h

/-- Forcing a rotation turns the memory unless its active table is empty. -/
theorem forceRotate_cases {m' : Memory} {generation : Option UInt64}
    (h : m.forceRotate = .ok (generation, m')) :
    m.closed = false ∧
      (generation = none ∧ m.active.cells = [] ∧ m' = m ∨
        m.nextGeneration.toNat + 1 < UInt64.size ∧
        generation = some m.activeGeneration ∧ m.active.cells ≠ [] ∧ m' = m.turn false) := by
  unfold forceRotate at h
  by_cases hc : m.closed = true
  · simp [hc] at h
  · rw [if_neg hc] at h
    have hopen : m.closed = false := by simpa using hc
    refine ⟨hopen, ?_⟩
    split at h
    · rename_i he
      rw [Except.ok.injEq, Prod.mk.injEq] at h
      exact Or.inl ⟨h.1.symm, by simpa [Buffer.isEmpty] using he, h.2.symm⟩
    · rename_i he
      obtain ⟨turned, hm, h⟩ := bind_eq_ok.mp h
      rw [pure_eq_ok, Except.ok.injEq, Prod.mk.injEq] at h
      obtain ⟨hr, ht⟩ := rotate_eq_turn hopen hm
      exact Or.inr ⟨hr, h.1.symm, by simpa [Buffer.isEmpty] using he, h.2.symm.trans ht⟩

theorem forceRotate_eq_error {fault : Fault} (h : m.forceRotate = .error fault) :
    fault = .closed ∧ m.closed = true ∨
      fault = .overflow ∧ ¬ m.nextGeneration.toNat + 1 < UInt64.size := by
  unfold forceRotate at h
  split at h
  · rename_i hc
    exact Or.inl ⟨(Except.error.inj h).symm, hc⟩
  · split at h
    · simp at h
    · rcases bind_eq_error.mp h with h | ⟨_, -, h⟩
      · exact Or.inr (rotate_eq_error h)
      · simp at h

/-- Closing turns the memory unless it is closed. -/
theorem close_cases {m' : Memory} (h : m.close = .ok m') :
    m.closed = true ∧ m' = m ∨
      m.closed = false ∧ m.nextGeneration.toNat + 1 < UInt64.size ∧ m' = m.turn true := by
  unfold close at h
  split at h
  · rename_i hc
    exact Or.inl ⟨hc, (Except.ok.inj h).symm⟩
  · rename_i hc
    obtain ⟨turned, hm, h⟩ := bind_eq_ok.mp h
    obtain ⟨hr, rfl⟩ := rotate_eq_ok.mp hm
    exact Or.inr ⟨by simpa using hc, hr, (Except.ok.inj h).symm⟩

theorem close_eq_error {fault : Fault} (h : m.close = .error fault) :
    fault = .overflow ∧ ¬ m.nextGeneration.toNat + 1 < UInt64.size := by
  unfold close at h
  split at h
  · simp at h
  · rcases bind_eq_error.mp h with h | ⟨_, -, h⟩
    · exact rotate_eq_error h
    · simp at h

theorem close_eq_turn (hc : m.closed = false) (h : m.nextGeneration.toNat + 1 < UInt64.size) :
    m.close = .ok (m.turn true) := by
  rw [close, if_neg (by simp [hc]), rotate_of_room h]
  rfl

/-! ### The table of a generation -/

variable {generation : UInt64}

theorem buffer?_active (m : Memory) : m.buffer? m.activeGeneration = some m.active := if_pos rfl

theorem buffer?_writeOnly (cell : Cell) (h : generation ≠ m.activeGeneration) :
    (m.writeOnly cell).buffer? generation = m.buffer? generation := by
  rw [buffer?, buffer?, if_neg h]
  exact if_neg h

/-- A rotation starts one table and leaves all others under their generations. -/
theorem buffer?_turn (final : Bool) (h : generation ≠ m.nextGeneration) :
    (m.turn final).buffer? generation = m.buffer? generation := by
  have hactive : (m.turn final).activeGeneration = m.nextGeneration := rfl
  have hretired : (m.turn final).retired = m.retired := rfl
  rw [buffer?, hactive, if_neg h, find?_turn, hretired, buffer?]
  by_cases hg : generation = m.activeGeneration
  · rw [if_pos hg, if_pos hg.symm]
    rfl
  · rw [if_neg hg, if_neg (Ne.symm hg)]

theorem find?_flushed (other : UInt64) : (m.flushed generation).pending.find? other =
    if generation = other then none else m.pending.find? other :=
  Generations.find?_erase m.pending generation other

/-- A table that is acknowledged is set aside under its generation. -/
theorem buffer?_flushed (m : Memory) (generation other : UInt64) :
    (m.flushed generation).buffer? other = m.buffer? other := by
  have hactive : (m.flushed generation).activeGeneration = m.activeGeneration := rfl
  have hbuffer : (m.flushed generation).active = m.active := rfl
  rw [buffer?, buffer?, hactive, hbuffer, find?_flushed]
  congr 1
  unfold flushed
  dsimp only
  cases hp : m.pending.find? generation with
  | none =>
    by_cases hg : generation = other
    · rw [if_pos hg, ← hg, hp]
    · rw [if_neg hg]
  | some b =>
    dsimp only
    rw [Generations.find?_insert]
    by_cases hg : generation = other
    · rw [if_pos hg, if_pos hg, ← hg, hp]
      rfl
    · rw [if_neg hg, if_neg hg]

/-! ### The watermark -/

/-- What was flushed comes before the pending tables and the active one. -/
structure IsFlushedBelow (m : Memory) : Prop where
  lt_pending : ∀ e ∈ m.pending.entries, m.lastFlushed < e.1
  lt_active : m.lastFlushed < m.activeGeneration

theorem isFlushedBelow_empty (threshold filterBits : Nat) {generation : UInt64}
    (next : UInt64) (h : 0 < generation) :
    (empty threshold filterBits generation next).IsFlushedBelow where
  lt_pending := fun e he => by simp [empty, Generations.empty] at he
  lt_active := h

theorem IsFlushedBelow.turn (h : m.IsFlushedBelow) (ho : m.IsOrdered) (final : Bool) :
    (m.turn final).IsFlushedBelow where
  lt_pending := by
    intro e he
    rw [entries_turn ho] at he
    rcases List.mem_append.mp he with he | he
    · exact h.lt_pending e he
    · rw [List.mem_singleton.mp he]
      exact h.lt_active
  lt_active := UInt64.lt_trans h.lt_active ho.active_lt

/-- The watermark rises to the first of the pending tables, which leaves. -/
theorem IsFlushedBelow.flushed (h : m.IsFlushedBelow) (ho : m.IsOrdered)
    {e : UInt64 × Buffer} {rest : List (UInt64 × Buffer)} (he : m.pending.entries = e :: rest) :
    (m.flushed e.1).IsFlushedBelow := by
  have hmem : e ∈ m.pending.entries := he ▸ List.mem_cons_self
  have hrise : (m.flushed e.1).lastFlushed = e.1 := by
    rcases max_generation_cases m.lastFlushed e.1 with ⟨-, hle⟩ | ⟨heq, -⟩
    · exact absurd (h.lt_pending e hmem) (UInt64.not_lt.mpr hle)
    · exact heq
  have hasc := m.pending.ascending
  rw [he] at hasc
  constructor
  · intro other hother
    have hrest : other ∈ (m.pending.erase e.1).entries := hother
    rw [Generations.entries_erase_head he] at hrest
    rw [hrise]
    exact List.rel_of_pairwise_cons hasc hrest
  · rw [hrise]
    exact ho.pending_lt e hmem

/-! ### Spent generations -/

theorem IsSpent.turn (h : m.IsSpent generation)
    (hr : m.nextGeneration.toNat + 1 < UInt64.size) (final : Bool) :
    (m.turn final).IsSpent generation where
  lt_next := UInt64.lt_trans h.lt_next (lt_next_of_room hr)
  ne_active := fun he => UInt64.lt_irrefl _ (he ▸ h.lt_next)
  not_pending := by
    rw [find?_turn, if_neg (Ne.symm h.ne_active)]
    exact h.not_pending

theorem IsSpent.flushed (h : m.IsSpent generation) (other : UInt64) :
    (m.flushed other).IsSpent generation where
  lt_next := h.lt_next
  ne_active := h.ne_active
  not_pending := by
    rw [find?_flushed]
    split
    · rfl
    · exact h.not_pending

theorem IsOrdered.isSpent_flushed (h : m.IsOrdered) {b : Buffer}
    (hb : m.pending.find? generation = some b) : (m.flushed generation).IsSpent generation where
  lt_next := UInt64.lt_trans (h.pending_lt _ (Generations.mem_entries_iff.mpr hb)) h.active_lt
  ne_active := fun he => by
    rw [show generation = m.activeGeneration from he, h.active_not_pending] at hb
    simp at hb
  not_pending := by rw [find?_flushed, if_pos rfl]

theorem IsSpent.spend (h : m.IsSpent generation)
    (hr : m.nextGeneration.toNat + 1 < UInt64.size) : m.spend.IsSpent generation where
  lt_next := UInt64.lt_trans h.lt_next (lt_next_of_room hr)
  ne_active := h.ne_active
  not_pending := h.not_pending

theorem IsOrdered.isSpent_spend (h : m.IsOrdered)
    (hr : m.nextGeneration.toNat + 1 < UInt64.size) :
    m.spend.IsSpent m.nextGeneration where
  lt_next := lt_next_of_room hr
  ne_active := fun he => UInt64.lt_irrefl _ (he ▸ h.active_lt)
  not_pending := by
    rw [Generations.find?_eq_none_iff]
    intro e he hg
    exact UInt64.lt_irrefl _ (hg ▸ UInt64.lt_trans (h.pending_lt e he) h.active_lt)

end Memory

end TableStore

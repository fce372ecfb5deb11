import TableStore.Proofs.Store.Coherence
import TableStore.Proofs.Store.Reading

/-! What is registered against what is on disk. When no two names open under one generation,
opening a store registers exactly the tables that open, and every move keeps it so; a second store
opened on the disk of a first one therefore reads the same tables. That all registered tables are
sound is kept as well. -/

namespace TableStore

/-- No two tables that open on a disk share a generation. -/
def Disk.IsDistinct (disk : Disk) : Prop :=
  ∀ ⦃name name' t t'⦄, disk.openTable name = .ok t → disk.openTable name' = .ok t' →
    t.generation = t'.generation → t = t'

/-- Every table that opens on a disk is sound. -/
def Disk.HasSoundTables (disk : Disk) : Prop :=
  ∀ ⦃name t⦄, disk.openTable name = .ok t → t.IsSound

theorem Disk.openTable_ofEmpty_ne_ok (path name : String) (t : Table) :
    (ofEmpty path).openTable name ≠ .ok t := by
  intro ho
  simpa using isSome_of_openTable ho

namespace Store

/-- Every table that opens on disk is registered. -/
def Mirrors (s : Store) : Prop :=
  ∀ ⦃name t⦄, s.disk.openTable name = .ok t → s.tables.find? t.generation = some t

variable {s s' r : Store} {settings : Settings} {disk : Disk} {cells writes : List Cell}

theorem Mirrors.isDistinct (h : s.Mirrors) : s.disk.IsDistinct := by
  intro name name' t t' ho ho' hg
  have hfound := h ho
  rw [hg, h ho', Option.some.injEq] at hfound
  exact hfound.symm

theorem IsCoherent.isSound (h : s.IsCoherent) (hs : s.disk.HasSoundTables) : s.IsSound where
  memory := ⟨h.ordered.buffers, h.ordered.active_not_pending⟩
  tables := by
    intro t ht
    obtain ⟨generation, hfound⟩ := Generations.mem_values_iff.mp ht
    obtain ⟨-, name, ho⟩ := h.registered hfound
    exact hs ho

/-! ### Moves -/

theorem Move.mirrors (hc : s.IsCoherent) (h : s.Mirrors) (hm : Move s cells s') : s'.Mirrors := by
  intro name t ho
  cases hm with
  | write | rotate | receive | acknowledge | spend | abandon => exact h ho
  | litter hd => exact h ((hd.openTable_litter name).symm.trans ho)
  | publish hb hd _ =>
    rw [tables_published, Generations.find?_insert]
    rcases (hc.openTable_published hb hd).mp ho with ⟨-, rfl⟩ | ho
    · rw [if_pos hd.generation_eq.symm]
    · rw [if_neg (hc.fresh_of_task hb ho).symm]
      exact h ho
  | replace _ _ _ hd _ =>
    rw [hc.find?_replaced hd.generation_eq]
    rcases (hc.openTable_replaced hd).mp ho with ⟨-, rfl⟩ | ⟨ho, hnot⟩
    · rw [if_pos rfl]
    · exact absurd (h ho) hnot

theorem Move.hasSoundTables (hc : s.IsCoherent) (h : s.disk.HasSoundTables)
    (hm : Move s cells s') : s'.disk.HasSoundTables := by
  intro name t ho
  cases hm with
  | write | rotate | receive | acknowledge | spend | abandon => exact h ho
  | litter hd => exact h ((hd.openTable_litter name).symm.trans ho)
  | publish hb hd hholds =>
    rcases (hc.openTable_published hb hd).mp ho with ⟨-, rfl⟩ | ho
    · exact hholds.isSound
    · exact h ho
  | replace _ _ _ hd hholds =>
    rcases (hc.openTable_replaced hd).mp ho with ⟨-, rfl⟩ | ⟨ho, -⟩
    · exact hholds.isSound
    · exact h ho

theorem Moves.mirrors (hc : s.IsCoherent) (h : s.Mirrors) (hm : Moves s writes s') :
    s'.Mirrors := by
  induction hm with
  | refl => exact h
  | move hms hm ih => exact hm.mirrors (hms.coherent hc) ih

theorem Moves.hasSoundTables (hc : s.IsCoherent) (h : s.disk.HasSoundTables)
    (hm : Moves s writes s') : s'.disk.HasSoundTables := by
  induction hm with
  | refl => exact h
  | move hms hm ih => exact hm.hasSoundTables (hms.coherent hc) ih

/-! ### Opening -/

theorem Opened.hasSoundTables (h : Opened settings disk r) (hs : disk.HasSoundTables) :
    r.disk.HasSoundTables := by
  intro name t ho
  exact hs ((h.openTable name).symm.trans ho)

/-- What opening registers when the generations are distinct. -/
theorem Opened.find?_eq_some_iff (h : Opened settings disk r) (hd : disk.IsDistinct)
    {generation : UInt64} {t : Table} : r.tables.find? generation = some t ↔
      t.generation = generation ∧ ∃ name, disk.openTable name = .ok t := by
  constructor
  · exact h.registered
  · rintro ⟨rfl, name, ho⟩
    obtain ⟨t', ht'⟩ := h.opened ho
    obtain ⟨hg, name', ho'⟩ := h.registered ht'
    rw [ht', hd ho' ho hg]

theorem Opened.mirrors (h : Opened settings disk r) (hd : disk.IsDistinct) : r.Mirrors := by
  intro name t ho
  exact (h.find?_eq_some_iff hd).mpr ⟨rfl, name, (h.openTable name).symm.trans ho⟩

/-- A store opened on the disk of another one reads the same tables. -/
theorem Opened.tables_eq (h : Opened settings s.disk r) (hc : s.IsCoherent) (hm : s.Mirrors) :
    r.tables = s.tables := by
  refine Generations.ext_find? fun generation => Option.ext fun t => ?_
  rw [h.find?_eq_some_iff hm.isDistinct]
  constructor
  · rintro ⟨rfl, name, ho⟩
    exact hm ho
  · exact hc.registered

/-- Nothing is in memory when a store has just been opened. -/
theorem Opened.versions_eq (h : Opened settings disk r) (key : Bytes) :
    r.memory.versions key = [] := by
  obtain ⟨greatest, hmemory, -⟩ := h.memory
  rw [hmemory]
  rfl

theorem Opened.isSound (h : Opened settings disk r) (hs : disk.HasSoundTables) : r.IsSound where
  memory := by
    obtain ⟨greatest, hmemory, -⟩ := h.memory
    rw [hmemory]
    exact Memory.isSound_empty _ _ _ _
  tables := by
    intro t ht
    obtain ⟨generation, hfound⟩ := Generations.mem_values_iff.mp ht
    obtain ⟨-, name, ho⟩ := h.registered hfound
    exact hs ho

theorem Opened.get_eq (h : Opened settings disk r) (key : Bytes) :
    r.memory.get key = .absent := by
  obtain ⟨greatest, hmemory, -⟩ := h.memory
  have hnil := h.versions_eq key
  rw [hmemory] at hnil ⊢
  rw [Memory.get_eq (Memory.isSound_empty _ _ _ _).buffers, hnil, Version.newest_nil]

/-- What a store without cells in memory reads is read again when the directory is opened anew. -/
theorem Opened.version_eq (h : Opened settings s.disk r) (hc : s.IsCoherent) (hm : s.Mirrors)
    (ha : s.memory.active.cells = []) (hp : s.memory.pending.entries = []) (key : Bytes) :
    r.version key = s.version key := by
  have hnil : s.memory.versions key = [] := by
    rw [Memory.versions, Memory.tables, Generations.values, hp]
    simp [ha]
  have hget : s.memory.get key = .absent := by
    rw [Memory.get_eq hc.ordered.buffers, hnil, Version.newest_nil]
  rw [version, version, h.tables_eq hc hm, h.get_eq, hget]

end Store

end TableStore

import TableStore.Proofs.Merge.Kept
import TableStore.Proofs.Store.Mirrors

/-! How a write becomes durable. A version is durable when a published table, the only one of its
generation, holds a version of its key that is not older; no move ends that, since a merge keeps a
version of every key that is not older than those of its inputs. Until then the last write of a key
waits in the active table or in a pending one. Pending tables leave in the order of their
generations, and each leaves only when its cells have been published. -/

namespace TableStore

/-- Cells that tell, under a key, a version that is not older than the given one. -/
def Keeps (cells : List Cell) (key : Bytes) (v : Version) : Prop :=
  ∃ found, lookup key cells = some found ∧ ¬ found.Older v

theorem keeps_of_lookup {cells : List Cell} {key : Bytes} {v : Version}
    (h : lookup key cells = some v) : Keeps cells key v := ⟨v, h, v.not_older_self⟩

theorem not_keeps_nil (key : Bytes) (v : Version) : ¬ Keeps [] key v := by
  rintro ⟨found, hf, -⟩
  simp at hf

/-- A merge keeps what its inputs keep. -/
theorem Keeps.mergeLists {sources : List (List Item)} {cells out : List Cell} {key : Bytes}
    {v : Version} (h : Keeps cells key v) (hm : cells.map .ok ∈ sources) (ha : Ascending cells)
    (ho : Ascending out) (hmerge : mergeLists sources = out.map .ok) : Keeps out key v := by
  obtain ⟨found, hf, hnot⟩ := h
  obtain ⟨cell, hcell, hkey, hkept⟩ := mergeLists_keeps hm ha hmerge _ (mem_of_lookup hf)
  refine ⟨cell.version, ?_, Version.not_older_trans hkept hnot⟩
  have hlook := ho.lookup_of_mem hcell
  rwa [hkey] at hlook

namespace Store

/-- A published table that keeps a version: it opens, no other table has its generation, it is
registered and sound, and it tells a version of the key that is not older. -/
structure Publishes (s : Store) (key : Bytes) (v : Version) (t : Table) : Prop where
  file : ∃ name, s.disk.openTable name = .ok t
  sole : ∀ {name other}, s.disk.openTable name = .ok other → other.generation = t.generation →
    other = t
  registered : s.tables.find? t.generation = some t
  sound : t.IsSound
  keeps : Keeps t.cells key v

/-- Some published table keeps the version. -/
def Durable (s : Store) (key : Bytes) (v : Version) : Prop := ∃ t, s.Publishes key v t

/-- A pending table of a generation up to a bound keeps the version. -/
def Pending (s : Store) (bound : UInt64) (key : Bytes) (v : Version) : Prop :=
  ∃ generation b, generation ≤ bound ∧ s.memory.pending.find? generation = some b ∧
    Keeps b.cells key v

variable {s s' : Store} {cells writes : List Cell} {key : Bytes} {v : Version} {bound : UInt64}
  {t : Table}

/-! ### Published tables stay published -/

theorem IsCoherent.publishes_new (h : s.IsCoherent) {task : FlushTask} {rest : List FlushTask}
    {t : Table} {disk : Disk} (hb : s.backlog = task :: rest)
    (hd : s.disk.Gains task.generation s.settings.layout t disk)
    (ht : t.Holds task.buffer.cells) (hk : Keeps task.buffer.cells key v) :
    (s.published task rest t disk).Publishes key v t where
  file := ⟨_, hd.openTable⟩
  sole := by
    intro name other ho hg
    rcases (h.openTable_published hb hd).mp ho with ⟨-, rfl⟩ | ho
    · rfl
    · exact absurd (hg.trans hd.generation_eq) (h.fresh_of_task hb ho)
  registered := by
    rw [tables_published, Generations.find?_insert, if_pos hd.generation_eq.symm]
  sound := ht.isSound
  keeps := ht.cells_eq.symm ▸ hk

theorem Publishes.publish (h : s.Publishes key v t) (hc : s.IsCoherent) {task : FlushTask}
    {rest : List FlushTask} {t' : Table} {disk : Disk} (hb : s.backlog = task :: rest)
    (hd : s.disk.Gains task.generation s.settings.layout t' disk) :
    (s.published task rest t' disk).Publishes key v t := by
  obtain ⟨name, hname⟩ := h.file
  have hne := hc.fresh_of_task hb hname
  have hstill := (hc.openTable_published hb hd).mpr (Or.inr hname)
  refine ⟨⟨name, hstill⟩, fun ho hg => ?_, ?_, h.sound, h.keeps⟩
  · rcases (hc.openTable_published hb hd).mp ho with ⟨-, rfl⟩ | ho
    · exact absurd (hg.symm.trans hd.generation_eq) hne
    · exact h.sole ho hg
  · rw [tables_published, Generations.find?_insert, if_neg hne.symm]
    exact h.registered

/-- The table that takes the place of all others keeps what one of them kept. -/
theorem Publishes.replace (h : s.Publishes key v t) (hc : s.IsCoherent)
    {sources : List (List Item)} {merged : List Cell} {t' : Table} {disk : Disk}
    (hs : s.tables.values.mapM (·.scan []) = .ok sources)
    (hm : mergeLists sources = merged.map .ok)
    (hd : s.disk.Gains s.memory.nextGeneration s.settings.layout t' disk)
    (ht : t'.Holds merged) :
    (s.replaced t' disk).Publishes key v t' where
  file := ⟨_, (hc.openTable_replaced hd).mpr (Or.inl ⟨rfl, rfl⟩)⟩
  sole := by
    intro name other ho hg
    rcases (hc.openTable_replaced hd).mp ho with ⟨-, rfl⟩ | ⟨ho, -⟩
    · rfl
    · exact absurd (hg.trans hd.generation_eq) (hc.fresh_of_next ho)
  registered := by
    rw [hc.find?_replaced hd.generation_eq, if_pos rfl]
  sound := ht.isSound
  keeps := by
    have hmem : t ∈ s.tables.values := Generations.mem_values_iff.mpr ⟨_, h.registered⟩
    have hsource : t.cells.map .ok ∈ sources := mem_of_mapM_eq_ok hs hmem h.sound.scan_all
    rw [ht.cells_eq]
    exact h.keeps.mergeLists hsource h.sound.ascending ht.ascending hm

/-- Nothing ends that a version is durable. -/
theorem Move.durable (hc : s.IsCoherent) (h : s.Durable key v) (hm : Move s cells s') :
    s'.Durable key v := by
  obtain ⟨t, h⟩ := h
  cases hm with
  | write | rotate | receive | acknowledge | spend | abandon =>
    exact ⟨t, h.file, h.sole, h.registered, h.sound, h.keeps⟩
  | publish hb hd _ => exact ⟨t, h.publish hc hb hd⟩
  | litter hd =>
    obtain ⟨name, ho⟩ := h.file
    exact ⟨t, ⟨name, (hd.openTable_litter name).trans ho⟩,
      fun ho => h.sole ((hd.openTable_litter _).symm.trans ho), h.registered, h.sound, h.keeps⟩
  | replace _ hs hmerge hd ht => exact ⟨_, h.replace hc hs hmerge hd ht⟩

theorem Moves.durable (hc : s.IsCoherent) (h : s.Durable key v) (hm : Moves s writes s') :
    s'.Durable key v := by
  induction hm with
  | refl => exact h
  | move hms hm ih => exact hm.durable (hms.coherent hc) ih

/-! ### Pending tables -/

/-- A pending table leaves when its cells are published, and not before. -/
theorem Move.pending_or_durable (hc : s.IsCoherent) (h : s.Pending bound key v)
    (hm : Move s cells s') : s'.Pending bound key v ∨ s'.Durable key v := by
  obtain ⟨generation, b, hle, hfound, hk⟩ := h
  -- What happens to the pending table when the first task is done.
  have hstay : ∀ {task : FlushTask} {rest : List FlushTask}, s.backlog = task :: rest →
      task.generation = generation ∧ task.buffer = b ∨
        (s.memory.flushed task.generation).pending.find? generation = some b := by
    intro task rest hb
    rw [Memory.find?_flushed]
    by_cases hg : task.generation = generation
    · have htask := hc.find?_task hb
      rw [hg, hfound, Option.some.injEq] at htask
      exact Or.inl ⟨hg, htask.symm⟩
    · rw [if_neg hg]
      exact Or.inr hfound
  cases hm with
  | write | receive | litter | spend | replace | abandon =>
    exact Or.inl ⟨generation, b, hle, hfound, hk⟩
  | rotate final _ _ =>
    refine Or.inl ⟨generation, b, hle, ?_, hk⟩
    dsimp only
    rw [Memory.find?_turn, if_neg]
    · exact hfound
    · rintro rfl
      rw [hc.ordered.active_not_pending] at hfound
      simp at hfound
  | acknowledge hb hnil =>
    rcases hstay hb with ⟨-, rfl⟩ | hstill
    · rw [hnil] at hk
      exact absurd hk (not_keeps_nil _ _)
    · exact Or.inl ⟨generation, b, hle, hstill, hk⟩
  | publish hb hd ht =>
    rcases hstay hb with ⟨-, rfl⟩ | hstill
    · exact Or.inr ⟨_, hc.publishes_new hb hd ht hk⟩
    · exact Or.inl ⟨generation, b, hle, hstill, hk⟩

theorem Moves.pending_or_durable (hc : s.IsCoherent) (h : s.Pending bound key v)
    (hm : Moves s writes s') : s'.Pending bound key v ∨ s'.Durable key v := by
  induction hm with
  | refl => exact Or.inl h
  | move hms hm ih =>
    have hc := hms.coherent hc
    exact ih.elim (fun h => hm.pending_or_durable hc h) fun h => Or.inr (hm.durable hc h)

theorem Pending.mono (h : s.Pending bound key v) {more : UInt64} (hle : bound ≤ more) :
    s.Pending more key v := by
  obtain ⟨generation, b, hg, hfound, hk⟩ := h
  exact ⟨generation, b, UInt64.le_trans hg hle, hfound, hk⟩

/-! ### Where the last write of a key is -/

/-- A version waits in the active table or in a pending one, or is durable. -/
def Awaits (s : Store) (key : Bytes) (v : Version) : Prop :=
  lookup key s.memory.active.cells = some v ∨ s.Pending s.memory.activeGeneration key v ∨
    s.Durable key v

/-- Rotating makes the active table pending, under the generation that was active. -/
theorem Awaits.rotate (h : s.Awaits key v) (hc : s.IsCoherent) (final : Bool)
    (hopen : s.memory.closed = false) (hr : s.HasRoomFor 1) :
    ({ s with memory := s.memory.turn final } : Store).Pending s.memory.activeGeneration key v ∨
      ({ s with memory := s.memory.turn final } : Store).Durable key v := by
  rcases h with h | h | h
  · refine Or.inl ⟨s.memory.activeGeneration, s.memory.active, UInt64.le_refl _, ?_,
      keeps_of_lookup h⟩
    dsimp only
    rw [Memory.find?_turn, if_pos rfl]
  · exact (Move.rotate final hopen hr).pending_or_durable hc h
  · exact Or.inr ((Move.rotate final hopen hr).durable hc h)

/-- The last write of every key waits or is durable. -/
def HoldsWrites (s : Store) (writes : List Cell) : Prop :=
  ∀ key v, lastWrite? key writes = some v → s.Awaits key v

theorem holdsWrites_nil (s : Store) : s.HoldsWrites [] := by
  intro key v h
  simp at h

/-- Moves that leave the active table alone. -/
theorem Move.awaits_of_active (hc : s.IsCoherent) (h : s.Awaits key v) (hm : Move s cells s')
    (ha : s'.memory.active = s.memory.active)
    (hg : s'.memory.activeGeneration = s.memory.activeGeneration) : s'.Awaits key v := by
  unfold Awaits
  rw [ha, hg]
  rcases h with h | h | h
  · exact Or.inl h
  · exact Or.inr (hm.pending_or_durable hc h)
  · exact Or.inr (Or.inr (hm.durable hc h))

theorem Move.holdsWrites (hc : s.IsCoherent) (h : s.HoldsWrites writes) (hm : Move s cells s') :
    s'.HoldsWrites (writes ++ cells) := by
  intro key v hl
  have hmove := hm
  cases hm with
  | write cell =>
    rw [lastWrite?_concat] at hl
    have hlook : lookup key (s.memory.writeOnly cell).active.cells =
        if cell.key = key then some cell.version else lookup key s.memory.active.cells :=
      Buffer.lookup_write _ _ _
    by_cases hk : cell.key = key
    · rw [if_pos hk] at hl
      exact Or.inl (by rw [hlook, if_pos hk, hl])
    · rw [if_neg hk] at hl
      rcases h key v hl with h | h | h
      · exact Or.inl (by rw [hlook, if_neg hk, h])
      · exact Or.inr (hmove.pending_or_durable hc h)
      · exact Or.inr (Or.inr (hmove.durable hc h))
  | rotate final hopen hr =>
    rw [List.append_nil] at hl
    have hle : s.memory.activeGeneration ≤ s.memory.nextGeneration :=
      UInt64.le_of_lt hc.ordered.active_lt
    exact Or.inr (((h key v hl).rotate hc final hopen hr).imp_left fun h => h.mono hle)
  | receive | acknowledge | publish | litter | spend | replace | abandon =>
    rw [List.append_nil] at hl
    exact hmove.awaits_of_active hc (h key v hl) rfl rfl

theorem Moves.holdsWrites {start : Store} {before : List Cell} (hc : start.IsCoherent)
    (h : start.HoldsWrites before) (hm : Moves start writes s) :
    s.HoldsWrites (before ++ writes) := by
  induction hm with
  | refl =>
    rwa [List.append_nil]
  | move hms hm ih => exact List.append_assoc _ _ _ ▸ hm.holdsWrites (hms.coherent hc) ih

/-- With nothing in memory, what waits is durable. -/
theorem Awaits.durable (h : s.Awaits key v) (ha : s.memory.active.cells = [])
    (hp : s.memory.pending.entries = []) : s.Durable key v := by
  rcases h with h | ⟨generation, b, -, hfound, -⟩ | h
  · rw [ha] at h
    simp at h
  · rw [Generations.find?_of_entries_eq_nil hp] at hfound
    simp at hfound
  · exact h

/-! ### Opened again -/

/-- A durable version is found again by whoever opens the directory: the table that keeps it is
registered, so what is read for the key is not older. -/
theorem Publishes.reopened (h : s.Publishes key v t) {settings : Settings} {r : Store}
    (hr : Opened settings s.disk r) : r.Publishes key v t where
  file := by
    obtain ⟨name, ho⟩ := h.file
    exact ⟨name, (hr.openTable name).trans ho⟩
  sole := fun ho => h.sole ((hr.openTable _).symm.trans ho)
  registered := by
    obtain ⟨name, ho⟩ := h.file
    obtain ⟨t', ht'⟩ := hr.opened ho
    obtain ⟨hg, name', ho'⟩ := hr.registered ht'
    rwa [h.sole ho' hg] at ht'
  sound := h.sound
  keeps := h.keeps

theorem Publishes.not_older (h : s.Publishes key v t) {found : Version}
    (hf : s.version key = .ok found) : ¬ found.Older v := by
  obtain ⟨held, hheld, hnot⟩ := h.keeps
  have hmem : t ∈ s.tables.values := Generations.mem_values_iff.mpr ⟨_, h.registered⟩
  exact Version.not_older_trans (not_older_of_version hf hmem h.sound hheld) hnot

/-- Opened again with any settings, while there are generations to go on with, the directory gives a
version of the key that is not older, unless a table that cannot be read stands in the way. -/
def Survives (s : Store) (key : Bytes) (v : Version) : Prop :=
  ∀ {settings : Settings}, settings.validate = .ok () → s.disk.HasRoom →
    ∃ r, load settings s.disk = .ok r ∧
    (s.disk.HasSoundTables → ∃ found, r.version key = .ok found) ∧
    ∀ found, r.version key = .ok found → ¬ found.Older v

theorem Durable.survives (h : s.Durable key v) (hp : s.disk.pathFault? = none) :
    s.Survives key v := by
  obtain ⟨t, h⟩ := h
  intro settings hvalid hroom
  obtain ⟨r, hr⟩ := exists_load hvalid hp hroom
  have ho := opened_of_load hr
  exact ⟨r, hr, fun hs => ⟨_, (ho.isSound hs).version key⟩,
    fun found hf => (h.reopened ho).not_older hf⟩

/-- The last write of every key is durable, and is found again by whoever opens the directory. -/
def SavesWrites (s : Store) (writes : List Cell) : Prop :=
  ∀ key v, lastWrite? key writes = some v → s.Durable key v ∧ s.Survives key v

theorem savesWrites_of_durable (hp : s.disk.pathFault? = none)
    (h : ∀ key v, lastWrite? key writes = some v → s.Durable key v) : s.SavesWrites writes :=
  fun key v hl => ⟨h key v hl, (h key v hl).survives hp⟩

/-- With nothing in memory, all last writes are durable. -/
theorem HoldsWrites.saves (h : s.HoldsWrites writes) (hpath : s.disk.pathFault? = none)
    (ha : s.memory.active.cells = []) (hp : s.memory.pending.entries = []) :
    s.SavesWrites writes :=
  savesWrites_of_durable hpath fun key v hl => (h key v hl).durable ha hp

end Store

end TableStore

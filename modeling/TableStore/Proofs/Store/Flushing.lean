import TableStore.Proofs.Store.Durable

/-! When a flush makes writes durable. A flush rotates the active table and waits until that
generation is no longer pending. Pending tables leave in the order of their generations, so all that
was written before is published by then. A flush that finds the active table empty returns at once
and leaves the store as it is, whatever is pending; it makes nothing durable. -/

namespace TableStore

/-! ### Pending tables leave in order -/

namespace Memory

/-- When a generation is no longer pending, none before it is. -/
structure ClearsInOrder (m : Memory) (bound : UInt64) : Prop where
  lt_active : bound < m.activeGeneration
  cleared : m.pending.find? bound = none →
    ∀ generation, generation ≤ bound → m.pending.find? generation = none

theorem clearsInOrder_turn {m : Memory} (h : m.IsOrdered) (final : Bool) :
    (m.turn final).ClearsInOrder m.activeGeneration where
  lt_active := h.active_lt
  cleared := by
    intro hnone
    rw [find?_turn, if_pos rfl] at hnone
    simp at hnone

end Memory

namespace Store

variable {s s' : Store} {cells writes during : List Cell} {key : Bytes} {v : Version}
  {bound : UInt64}

theorem IsCoherent.task_le (h : s.IsCoherent) {task : FlushTask} {rest : List FlushTask}
    (hb : s.backlog = task :: rest) {generation : UInt64} {b : Buffer}
    (hfound : s.memory.pending.find? generation = some b) : task.generation ≤ generation := by
  have hentries := h.entries_eq hb
  have hasc := s.memory.pending.ascending
  rw [← Generations.mem_entries_iff, hentries] at hfound
  rw [hentries] at hasc
  rcases List.mem_cons.mp hfound with he | hm
  · rw [Prod.mk.injEq] at he
    exact he.1 ▸ UInt64.le_refl _
  · exact UInt64.le_of_lt (List.rel_of_pairwise_cons hasc hm)

theorem IsCoherent.clearsInOrder_flushed (h : s.IsCoherent)
    (hbound : s.memory.ClearsInOrder bound) {task : FlushTask} {rest : List FlushTask}
    (hb : s.backlog = task :: rest) :
    (s.memory.flushed task.generation).ClearsInOrder bound where
  lt_active := hbound.lt_active
  cleared := by
    intro hnone generation hle
    rw [Memory.find?_flushed] at hnone ⊢
    by_cases hg : task.generation = bound
    · -- The first of the pending tables left, and it was that of the bound.
      split
      · rfl
      · cases hfound : s.memory.pending.find? generation with
        | none => rfl
        | some b =>
          have hge := h.task_le hb hfound
          exact absurd (UInt64.le_antisymm hge (hg ▸ hle)) (by assumption)
    · rw [if_neg hg] at hnone
      rw [hbound.cleared hnone generation hle, ite_self]

theorem Move.clearsInOrder (hc : s.IsCoherent) (h : s.memory.ClearsInOrder bound)
    (hm : Move s cells s') : s'.memory.ClearsInOrder bound := by
  cases hm with
  | write | receive | litter | spend | replace | abandon => exact ⟨h.lt_active, h.cleared⟩
  | rotate final _ hr =>
    refine ⟨UInt64.lt_trans h.lt_active hc.ordered.active_lt, fun hnone generation hle => ?_⟩
    have hne : ∀ other, other ≤ bound → s.memory.activeGeneration ≠ other := fun other hle he =>
      UInt64.lt_irrefl _ (UInt64.lt_of_lt_of_le h.lt_active (he ▸ hle))
    have hsame : ∀ other, other ≤ bound →
        (s.memory.turn final).pending.find? other = s.memory.pending.find? other := by
      intro other hle
      rw [Memory.find?_turn, if_neg (hne other hle)]
    rw [hsame bound (UInt64.le_refl _)] at hnone
    rw [hsame generation hle]
    exact h.cleared hnone generation hle
  | acknowledge hb _ => exact hc.clearsInOrder_flushed h hb
  | publish hb _ _ => exact hc.clearsInOrder_flushed h hb

theorem Moves.clearsInOrder (hc : s.IsCoherent) (h : s.memory.ClearsInOrder bound)
    (hm : Moves s writes s') : s'.memory.ClearsInOrder bound := by
  induction hm with
  | refl => exact h
  | move hms hm ih => exact hm.clearsInOrder (hms.coherent hc) ih

/-! ### Flushing -/

/-- A call of flush, the cells written meanwhile, its outcome and the store when it returns. It is
refused when the store is closed; it returns at once when the active table is empty; otherwise it
rotates the table and waits, while steps of all kinds are taken, until the generation is no longer
pending, or until it has waited too long. -/
inductive Flushing (s : Store) : List Cell → Option Fault → Store → Prop
  | refused {fault : Fault} : s.memory.forceRotate = .error fault → Flushing s [] (some fault) s
  | idle {memory : Memory} : s.memory.forceRotate = .ok (none, memory) → Flushing s [] none s
  | done {generation : UInt64} {memory : Memory} {during : List Cell} {s' : Store} :
    s.memory.forceRotate = .ok (some generation, memory) →
    Run { s with memory } during s' → s'.memory.pending.contains generation = false →
    Flushing s during none s'
  | late {generation : UInt64} {memory : Memory} {during : List Cell} {s' : Store} :
    s.memory.forceRotate = .ok (some generation, memory) →
    Run { s with memory } during s' → s'.memory.pending.contains generation = true →
    Flushing s during (some (.flushTimeout generation)) s'

theorem of_forceRotate_eq_none {m memory : Memory} (h : m.forceRotate = .ok (none, memory)) :
    m.active.cells = [] := by
  obtain ⟨-, ⟨-, he, -⟩ | ⟨-, hg, -, -⟩⟩ := Memory.forceRotate_cases h
  · exact he
  · simp at hg

theorem of_forceRotate_eq_some {m memory : Memory} {generation : UInt64}
    (h : m.forceRotate = .ok (some generation, memory)) :
    m.closed = false ∧ m.active.cells ≠ [] ∧ generation = m.activeGeneration ∧
      memory = m.turn false := by
  obtain ⟨hc, ⟨hg, -, -⟩ | ⟨-, hg, he, hm⟩⟩ := Memory.forceRotate_cases h
  · simp at hg
  · exact ⟨hc, he, Option.some.inj hg, hm⟩

/-- Flushing and letting the worker settle is such a call. -/
theorem flushing_flush (hr : s.HasRoomFor (s.waiting + 3)) :
    Flushing s [] s.flush.1 s.flush.2 := by
  unfold flush
  rcases hf : s.memory.forceRotate with fault | ⟨_ | generation, memory⟩
  · exact .refused hf
  · exact .idle hf
  · have hrun : Run { s with memory } [] ({ s with memory } : Store).settle := by
      obtain ⟨-, -, -, hturn⟩ := of_forceRotate_eq_some hf
      have hroom : s.memory.nextGeneration.toNat + 1 < UInt64.size := by
        unfold HasRoomFor at hr
        omega
      have hnext : memory.nextGeneration.toNat = s.memory.nextGeneration.toNat + 1 :=
        hturn ▸ toNat_spend hroom
      have hqueue : memory.queue.length = s.memory.queue.length + 1 := by
        rw [hturn]
        exact List.length_append
      refine run_settle ?_
      unfold HasRoomFor waiting at *
      dsimp only
      omega
    dsimp only
    split
    · rename_i hin
      exact .late hf hrun hin
    · rename_i hout
      exact .done hf hrun (by simpa using hout)

/-- A call of flush is a run of steps. -/
theorem Flushing.run {outcome : Option Fault} (h : Flushing s during outcome s')
    (hr : s.HasRoomFor 1) : Run s during s' := by
  cases h with
  | refused | idle => exact .refl
  | done hforce hrun _ => exact (Run.refl.step hr (.rotate hforce)).trans hrun
  | late hforce hrun _ => exact (Run.refl.step hr (.rotate hforce)).trans hrun

/-- A flush that rotated the active table and was not late has made all writes before it durable. -/
theorem IsCoherent.durable_of_rotated (hc : s.IsCoherent) (hopen : s.memory.closed = false)
    (hr : s.HasRoomFor 1) (h : s.Awaits key v)
    (hm : Moves { s with memory := s.memory.turn false } during s')
    (hout : s'.memory.pending.find? s.memory.activeGeneration = none) : s'.Durable key v := by
  have hturned := hc.rotate hopen hr false
  have hafter : s'.Pending s.memory.activeGeneration key v ∨ s'.Durable key v := by
    rcases h.rotate hc false hopen hr with h | h
    · exact hm.pending_or_durable hturned h
    · exact Or.inr (hm.durable hturned h)
  have hclears := hm.clearsInOrder hturned (Memory.clearsInOrder_turn hc.ordered false)
  rcases hafter with ⟨generation, b, hle, hfound, -⟩ | h
  · rw [hclears.cleared hout generation hle] at hfound
    simp at hfound
  · exact h

/-- A flush that returns without a fault has made durable what waited, if it found something in the
active table. -/
theorem Flushing.durable (h : Flushing s during none s') (hc : s.IsCoherent) (hr : s.HasRoomFor 1)
    (hne : s.memory.active.cells ≠ []) (hv : s.Awaits key v) : s'.Durable key v := by
  cases h with
  | idle hforce => exact absurd (of_forceRotate_eq_none hforce) hne
  | done hforce hafter hout =>
    obtain ⟨hopen, -, rfl, rfl⟩ := of_forceRotate_eq_some hforce
    refine hc.durable_of_rotated hopen hr hv (hafter.moves hc.fits) ?_
    cases hfound : s'.memory.pending.find? s.memory.activeGeneration with
    | none => rfl
    | some b =>
      rw [Generations.contains_iff.mpr ⟨b, hfound⟩] at hout
      simp at hout

/-- Otherwise it has done nothing. -/
theorem Flushing.eq_of_idle (h : Flushing s during none s') (hnil : s.memory.active.cells = []) :
    s' = s ∧ during = [] := by
  cases h with
  | idle => exact ⟨rfl, rfl⟩
  | done hforce =>
    obtain ⟨-, hne, -⟩ := of_forceRotate_eq_some hforce
    exact absurd hnil hne

/-- A flush that returns without a fault has made the writes before it durable exactly when it found
something in the active table, or when they were durable before. With an empty active table it does
nothing at all, which is enough when no table is pending. -/
theorem Flushing.savesWrites_iff {settings : Settings} {disk : Disk} {start : Store}
    (hd : disk.IsUsable) (hf : Draft.FilterFits settings.layout settings.filterBits)
    (hl : load settings disk = .ok start) (hrun : Run start writes s) (hr : s.HasRoomFor 1)
    (h : Flushing s during none s') :
    (s'.SavesWrites writes ↔ s.memory.active.cells ≠ [] ∨ s.SavesWrites writes) ∧
    (s.memory.active.cells = [] → s' = s ∧ during = []) ∧
    (s.memory.pending.entries = [] → s'.SavesWrites writes) := by
  have hopened := (opened_of_load hl).coherent hd hf
  have hmoves := hrun.moves hopened.1.fits
  have hc := hmoves.coherent hopened.1
  have hholds : s.HoldsWrites writes := hmoves.holdsWrites hopened.1 (holdsWrites_nil start)
  have hafter := (hrun.trans (h.run hr)).moves hopened.1.fits
  have hrotated : s.memory.active.cells ≠ [] → s'.SavesWrites writes := fun hne =>
    savesWrites_of_durable (pathFault?_of_moves hl hafter)
      fun key v hv => h.durable hc hr hne (hholds key v hv)
  refine ⟨⟨fun hs => ?_, fun hs => ?_⟩, h.eq_of_idle, fun hp => ?_⟩
  · by_cases hnil : s.memory.active.cells = []
    · exact Or.inr ((h.eq_of_idle hnil).1 ▸ hs)
    · exact Or.inl hnil
  · by_cases hnil : s.memory.active.cells = []
    · rw [(h.eq_of_idle hnil).1]
      exact hs.resolve_left (not_not_intro hnil)
    · exact hrotated hnil
  · by_cases hnil : s.memory.active.cells = []
    · exact (h.eq_of_idle hnil).1 ▸ hholds.saves (pathFault?_of_moves hl hmoves) hnil hp
    · exact hrotated hnil

/-- A flush that found a cell in the active table and returned has made it durable. -/
theorem saves_after_flush : ∃ start s,
    load { layout := .plain, filterBits := 64 } (.ofEmpty "data") = .ok start ∧
    start.put [97] [98] 1 = .ok s ∧ s.flush.1 = none ∧
    s.flush.2.SavesWrites [⟨[97], .present 1 [98]⟩] := by
  have hvalid : Settings.validate { layout := .plain, filterBits := 64 } = .ok () := rfl
  have hfits : Draft.FilterFits .plain 64 := nofun
  obtain ⟨start, hl⟩ := exists_load_ofEmpty hvalid
  obtain ⟨s, hput, hroom, hactive, hflush⟩ : ∃ s, start.put [97] [98] 1 = .ok s ∧
      start.HasRoomFor 1 ∧ s.memory.active.cells ≠ [] ∧ s.HasRoomFor (s.waiting + 3) ∧
      s.flush.1.isNone := by
    cases hl
    exact ⟨_, rfl, by decide +kernel, by decide +kernel, by decide +kernel, by decide +kernel⟩
  have hone : s.HasRoomFor 1 := hflush.1.mono (by omega)
  have hnone : s.flush.1 = none := Option.isNone_iff_eq_none.mp hflush.2
  have hcall := flushing_flush hflush.1
  rw [hnone] at hcall
  have hrun : Run start [⟨[97], .present 1 [98]⟩] s := Run.refl.step hroom (.put hput)
  have hsaves := hcall.savesWrites_iff (Disk.isUsable_ofEmpty "data") hfits hl hrun hone
  exact ⟨start, s, hl, hput, hnone, hsaves.1.mpr (Or.inl hactive)⟩

/-- A flush that finds the active table empty succeeds while a write is pending, and whoever opens
the directory then does not find that write. -/
theorem flush_saves_nothing_pending : ∃ start s,
    load { layout := .plain, filterBits := 64, flushThreshold := 0 } (.ofEmpty "data") =
      .ok start ∧
    Run start [⟨[97], .present 1 [98]⟩] s ∧ s.flush = (none, s) ∧
    load { layout := .plain, filterBits := 64, flushThreshold := 0 } s.disk = .ok start ∧
    start.version [97] = .ok .absent := by
  have hvalid : Settings.validate { layout := .plain, filterBits := 64, flushThreshold := 0 } =
    .ok () := rfl
  obtain ⟨start, hl⟩ := exists_load_ofEmpty hvalid
  obtain ⟨s, hput, hroom, hflush, hdisk, hversion⟩ : ∃ s, start.put [97] [98] 1 = .ok s ∧
      start.HasRoomFor 1 ∧ s.flush = (none, s) ∧ s.disk = .ofEmpty "data" ∧
      start.version [97] = .ok .absent := by
    cases hl
    exact ⟨_, rfl, by decide, rfl, rfl, rfl⟩
  have hrun : Run start [⟨[97], .present 1 [98]⟩] s := Run.refl.step hroom (.put hput)
  exact ⟨start, s, hl, hrun, hflush, hdisk.symm ▸ hl, hversion⟩

end Store

end TableStore

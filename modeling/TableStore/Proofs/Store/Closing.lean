import TableStore.Proofs.Store.Durable

/-! When closing makes writes durable. The first call of close rotates the active table as the final
task and waits for the end of the worker, which succeeds only when the backlog is empty; as long as
nothing is given up, the pending tables are the tasks that are not done, so none is pending then. A
later call returns at once and leaves the store as it is: when the first one failed, what it left
pending stays pending. -/

namespace TableStore

namespace Store

variable {s s' : Store} {cells writes : List Cell} {key : Bytes} {v : Version}

/-! ### Tasks and pending tables -/

/-- Background steps do each task in its turn and give none up. -/
theorem Work.aligned (h : s.IsAligned) (hw : Work s s') : s'.IsAligned := by
  cases hw with
  | receive hq => exact h.received hq
  | flush hb hflush =>
    obtain ⟨_, _, rfl, -⟩ := of_flushTable_eq_none hflush
    exact h.flushed hb
  | fail hb hflush =>
    obtain ⟨_, rfl⟩ := of_flushTable_eq_some hflush
    exact h
  | compact =>
    rcases compact_registers s with ho | ⟨_, _, ho, -⟩
    · rw [ho]
      exact h
    · rw [ho]
      exact h

theorem Works.aligned (h : s.IsAligned) (hw : Works s s') : s'.IsAligned := by
  induction hw with
  | refl => exact h
  | step _ _ hw ih => exact hw.aligned ih

/-! ### Closing -/

/-- A call of close, its outcome and the store when it returns. The first one closes the memory and
waits for the end of the worker: it succeeds when background steps have done all tasks, and fails
when the backlog was given up, or at once when there is no generation for another table. A later one
returns at once. -/
inductive Closing (s : Store) : Option Fault → Store → Prop
  | ended {memory : Memory} {s' : Store} : s.memory.closed = false →
    s.memory.close = .ok memory → Works { s with memory } s' → s'.backlog = [] →
    s'.memory.queue = [] → Closing s none s'
  | failed {memory : Memory} {fault : Fault} {s' : Store} : s.memory.closed = false →
    s.memory.close = .ok memory → Run { s with memory } [] s' → Closing s (some fault) s'
  | refused {fault : Fault} : s.memory.close = .error fault → Closing s (some fault) s
  | again : s.memory.closed = true → Closing s none s

/-- A close that the memory allows turns an open one. -/
theorem of_close_eq_ok {m memory : Memory} (hc : m.closed = false) (h : m.close = .ok memory) :
    m.nextGeneration.toNat + 1 < UInt64.size ∧ memory = m.turn true := by
  obtain ⟨hclosed, -⟩ | ⟨-, hr, ht⟩ := Memory.close_cases h
  · simp [hc] at hclosed
  · exact ⟨hr, ht⟩

/-- Closing an open store queues the final task and lets the worker receive all. -/
theorem receivedTo_close (hopen : s.memory.closed = false) (hr : s.HasRoomFor (s.waiting + 3)) :
    ReceivedTo (s.memory.queue ++ [⟨s.memory.activeGeneration, s.memory.active, true⟩])
      { s with memory := s.memory.turn true } s.close := by
  have hroom : s.memory.nextGeneration.toNat + 1 < UInt64.size := by
    unfold HasRoomFor at hr
    omega
  have hnext : (s.memory.turn true).nextGeneration.toNat = s.memory.nextGeneration.toNat + 1 :=
    toNat_spend hroom
  rw [close, if_neg (by simp [hopen]), Memory.close_eq_turn hopen hroom]
  refine receivedTo_receive _ { s with memory := s.memory.turn true } rfl ?_
  unfold HasRoomFor waiting at *
  rw [List.length_append, List.length_singleton]
  dsimp only
  omega

/-- Closing is a run of steps, whatever comes of it. -/
theorem run_close (hr : s.HasRoomFor (s.waiting + 3)) : Run s [] s.close.2 := by
  cases hc : s.memory.closed with
  | true =>
    rw [close, if_pos hc]
    exact .refl
  | false =>
    have hone : s.HasRoomFor 1 := hr.mono (by omega)
    exact (Run.refl.step hone (.close (Memory.close_eq_turn hc hone))).trans
      (receivedTo_close hc hr).run

/-- Closing a store in order is such a call. -/
theorem IsCoherent.closing_close (h : s.IsCoherent) (hr : s.HasRoomFor (s.waiting + 3)) :
    Closing s s.close.1 s.close.2 := by
  by_cases hc : s.memory.closed = true
  · rw [close, if_pos hc]
    exact .again hc
  · have hopen : s.memory.closed = false := by simpa using hc
    have hreceived := receivedTo_close hopen hr
    have hturn := Memory.close_eq_turn hopen (hr.mono (by omega) : s.HasRoomFor 1)
    rcases ho : s.close with ⟨_ | fault, s'⟩
    · rw [ho] at hreceived
      have hfinal := hreceived.final ⟨_, List.mem_append_right _ List.mem_cons_self, rfl⟩
      obtain ⟨hbacklog, front, task, hsplit, htask⟩ := hfinal
      refine .ended hopen hturn (hreceived.works rfl) hbacklog ?_
      -- Only the last of the tasks is final, and the worker ended behind a final one.
      dsimp only at hsplit ⊢
      rcases List.eq_nil_or_concat s'.memory.queue with hnil | ⟨init, last, hlast⟩
      · exact hnil
      · rw [hlast, List.concat_eq_append, ← List.cons_append, ← List.append_assoc] at hsplit
        have hfront := (List.append_inj' hsplit rfl).1
        have hall : s.backlog ++ s.memory.queue = (s.backlog ++ front) ++ task :: init := by
          rw [hfront, List.append_assoc]
        have hclosed := (h.final hall htask).1
        rw [hopen] at hclosed
        simp at hclosed
    · rw [ho] at hreceived
      exact .failed hopen hturn hreceived.run

/-- A call of close is a run of steps. -/
theorem Closing.run {outcome : Option Fault} (h : Closing s outcome s') (hr : s.HasRoomFor 1) :
    Run s [] s' := by
  cases h with
  | ended _ hclose hworks _ _ => exact (Run.refl.step hr (.close hclose)).trans hworks.run
  | failed _ hclose hrun => exact (Run.refl.step hr (.close hclose)).trans hrun
  | refused | again => exact .refl

/-! ### What a successful call says -/

/-- Nothing is pending after the first call that succeeds. -/
theorem IsCoherent.nothing_pending (h : s.IsCoherent) (hopen : s.memory.closed = false)
    (hw : Works { s with memory := s.memory.turn true } s') (hb : s'.backlog = [])
    (hq : s'.memory.queue = []) : s'.memory.pending.entries = [] := by
  have hclosed : ({ s with memory := s.memory.turn true } : Store).IsAligned := by
    have haligned : s.IsAligned := h.tasks.resolve_right (by simp [hopen])
    exact haligned.turn h.ordered true
  have hafter := hw.aligned hclosed
  rw [IsAligned, hb, hq] at hafter
  exact hafter

theorem Move.closed (h : s.memory.closed = true) (hm : Move s cells s') :
    s'.memory.closed = true := by
  cases hm with
  | write _ hopen _ => simp [h] at hopen
  | rotate _ hopen _ => simp [h] at hopen
  | receive | acknowledge | publish | litter | spend | replace | abandon => exact h

theorem Moves.closed (h : s.memory.closed = true) (hm : Moves s writes s') :
    s'.memory.closed = true := by
  induction hm with
  | refl => exact h
  | move _ hm ih => exact hm.closed ih

/-- The first call moves on to a closed store, a later one stays where it is. -/
theorem Closing.moves (h : Closing s none s') (hc : s.IsCoherent) (hr : s.HasRoomFor 1) :
    Moves s [] s' ∧ s'.memory.closed = true := by
  cases h with
  | ended hopen hclose hw _ _ =>
    obtain ⟨-, rfl⟩ := of_close_eq_ok hopen hclose
    have hturn := Moves.single (Move.rotate true hopen hr)
    have hworks := hw.run.moves (hc.rotate hopen hr true).fits
    exact ⟨hturn.trans hworks, hworks.closed rfl⟩
  | again hclosed => exact ⟨.refl, hclosed⟩

/-- After a close that returns without a fault nothing is pending, if it was the first call or
nothing was pending before; otherwise it did nothing. When nothing is pending, every write is
durable, and whoever opens the directory anew reads what the closed store reads. -/
theorem Closing.nothing_pending_iff {settings : Settings} {disk : Disk} {start : Store}
    (hd : disk.IsUsable) (hf : Draft.FilterFits settings.layout settings.filterBits)
    (hl : load settings disk = .ok start) (hrun : Run start writes s) (hr : s.HasRoomFor 1)
    (h : Closing s none s') :
    (s'.memory.pending.entries = [] ↔
      s.memory.closed = false ∨ s.memory.pending.entries = []) ∧
    (s.memory.closed = true → s' = s) ∧
    (s'.memory.pending.entries = [] → s'.SavesWrites writes ∧
      (disk.IsDistinct → ∀ {settings r}, load settings s'.disk = .ok r →
        ∀ key, r.version key = s'.version key)) := by
  have hopened := opened_of_load hl
  have hstart := (hopened.coherent hd hf).1
  have hmoves := hrun.moves hstart.fits
  have hc := hmoves.coherent hstart
  obtain ⟨hafter, hclosed⟩ := h.moves hc hr
  have hcoherent := hafter.coherent hc
  have hactive := hcoherent.ordered.closed hclosed
  refine ⟨?_, fun hclosed => ?_, fun hp => ⟨?_, fun hdistinct settings r hreopen key => ?_⟩⟩
  · cases h with
    | ended hopen hclose hw hb hq =>
      obtain ⟨-, rfl⟩ := of_close_eq_ok hopen hclose
      exact iff_of_true (hc.nothing_pending hopen hw hb hq) (Or.inl hopen)
    | again hclosed => simp [hclosed]
  · cases h with
    | ended hopen => simp [hclosed] at hopen
    | again => rfl
  · have hholds := hafter.holdsWrites hc (hmoves.holdsWrites hstart (holdsWrites_nil start))
    rw [List.nil_append, List.append_nil] at hholds
    exact hholds.saves (pathFault?_of_moves hl (hmoves.trans hafter)) hactive hp
  · have hmirrors := (hmoves.trans hafter).mirrors hstart (hopened.mirrors hdistinct)
    exact (opened_of_load hreopen).version_eq hcoherent hmirrors hactive hp key

/-- A first close that succeeds leaves nothing pending and what was put durable. -/
theorem saves_after_close : ∃ start s,
    load { layout := .plain, filterBits := 64 } (.ofEmpty "data") = .ok start ∧
    start.put [97] [98] 1 = .ok s ∧ s.close.1 = none ∧
    s.close.2.memory.pending.entries = [] ∧
    s.close.2.SavesWrites [⟨[97], .present 1 [98]⟩] := by
  have hvalid : Settings.validate { layout := .plain, filterBits := 64 } = .ok () := rfl
  have hfits : Draft.FilterFits .plain 64 := nofun
  obtain ⟨start, hl⟩ := exists_load_ofEmpty hvalid
  obtain ⟨s, hput, hroom, hopen, hrest, hclose⟩ : ∃ s, start.put [97] [98] 1 = .ok s ∧
      start.HasRoomFor 1 ∧ s.memory.closed = false ∧ s.HasRoomFor (s.waiting + 3) ∧
      s.close.1.isNone := by
    cases hl
    exact ⟨_, rfl, by decide +kernel, by decide +kernel, by decide +kernel, by decide +kernel⟩
  have hone : s.HasRoomFor 1 := hrest.mono (by omega)
  have hstart := ((opened_of_load hl).coherent (Disk.isUsable_ofEmpty "data") hfits).1
  have hrun : Run start [⟨[97], .present 1 [98]⟩] s := Run.refl.step hroom (.put hput)
  have hnone : s.close.1 = none := Option.isNone_iff_eq_none.mp hclose
  have hcall := ((hrun.moves hstart.fits).coherent hstart).closing_close hrest
  rw [hnone] at hcall
  have hsaves := hcall.nothing_pending_iff (Disk.isUsable_ofEmpty "data") hfits hl hrun hone
  have hpending := hsaves.1.mpr (Or.inl hopen)
  exact ⟨start, s, hl, hput, hnone, hpending, (hsaves.2.2 hpending).1⟩

/-- A folder where the temporary file of the first table would be. -/
def obstructed : Disk where
  path := "data"
  directory := some ⟨[("table_00000000000000000001.tmp", .folder)], by simp⟩

/-- The first close fails, the second succeeds while the table is pending, and what the closed store
still reads is not found by whoever opens the directory. -/
theorem close_again_saves_nothing : ∃ start s r,
    load { layout := .plain, filterBits := 64 } obstructed = .ok start ∧
    start.put [97] [98] 1 = .ok s ∧ s.close.1 ≠ none ∧
    s.close.2.close = (none, s.close.2) ∧ s.close.2.memory.pending.entries ≠ [] ∧
    s.close.2.version [97] = .ok (.present 1 [98]) ∧
    load { layout := .plain, filterBits := 64 } s.close.2.disk = .ok r ∧
    r.version [97] = .ok .absent := by
  have hvalid : Settings.validate { layout := .plain, filterBits := 64 } = .ok () := rfl
  have hpath : obstructed.pathFault? = none := by decide
  obtain ⟨start, hl⟩ := exists_load hvalid hpath (by decide)
  obtain ⟨s, hput, hfirst, hclosed, hpending, hversion, hreopened⟩ :
      ∃ s, start.put [97] [98] 1 = .ok s ∧ s.close.1.isSome ∧
      s.close.2.memory.closed = true ∧ s.close.2.memory.pending.entries ≠ [] ∧
      (s.close.2.version [97]).toOption = some (.present 1 [98]) ∧
      ((load { layout := .plain, filterBits := 64 } s.close.2.disk).toOption.bind
        fun r => (r.version [97]).toOption) = some .absent := by
    cases hl
    exact ⟨_, rfl, by decide +kernel, by decide +kernel, by decide +kernel, by decide +kernel,
      by decide +kernel⟩
  obtain ⟨r, hr, hr'⟩ := Option.bind_eq_some_iff.mp hreopened
  have hfault : s.close.1 ≠ none := Option.isSome_iff_ne_none.mp hfirst
  have hsecond : s.close.2.close = (none, s.close.2) := if_pos hclosed
  exact ⟨start, s, r, hl, hput, hfault, hsecond, hpending, toOption_eq_some.mp hversion,
    toOption_eq_some.mp hr, toOption_eq_some.mp hr'⟩

end Store

end TableStore

import TableStore.Proofs.Memory.History
import TableStore.Proofs.Store.Moves
import TableStore.Proofs.Store.Recovery

/-! How far generations are fresh. A store that opens hands out the generation behind the greatest
one that its directory names, then the next, and so on, one for each rotation and each reservation,
whatever is called in between: all are new, and none is handed out twice. The count is one ahead of
those handed out, so it overflows one too early. The last generation is never handed out, and a
directory that names the one before it cannot be opened. -/

namespace TableStore

/-! ### Counting -/

namespace History

variable {h : History} {generation greatest : UInt64}

/-- The generations handed out are consecutive from `generation` on, and those of the tables are
among them, in order. -/
structure CountsUp (generation : UInt64) (h : History) : Prop where
  handed : h.handed.map UInt64.toNat = List.range' generation.toNat h.handed.length
  next : h.memory.nextGeneration.toNat = generation.toNat + h.handed.length
  tables : (h.queued.map FlushTask.generation ++ [h.memory.activeGeneration]).Sublist h.handed

/-- The next generation is handed out behind the others. -/
theorem map_toNat_concat (hs : h.handed.map UInt64.toNat =
      List.range' generation.toNat h.handed.length)
    (hn : h.memory.nextGeneration.toNat = generation.toNat + h.handed.length) :
    (h.handed ++ [h.memory.nextGeneration]).map UInt64.toNat =
      List.range' generation.toNat (h.handed ++ [h.memory.nextGeneration]).length := by
  rw [List.map_append, hs, List.map_singleton, hn, List.length_append, List.length_singleton,
    List.range'_1_concat]

theorem Change.map_toNat_handed {next : History} (hc : Change h next)
    (hs : h.handed.map UInt64.toNat = List.range' generation.toNat h.handed.length)
    (hn : h.memory.nextGeneration.toNat = generation.toNat + h.handed.length) :
    next.handed.map UInt64.toNat = List.range' generation.toNat next.handed.length := by
  cases hc with
  | none | write | take | acknowledge => exact hs
  | overfill | turn | reserve => exact map_toNat_concat hs hn

/-- Whatever the calls, a memory counts up from its first generation. -/
theorem countsUp_ofCalls {threshold filterBits : Nat} {requests : List Request}
    (hs : ofCalls threshold filterBits generation requests = .ok h) : h.CountsUp generation := by
  have a := (addsUp_ofCalls hs).1
  suffices hhanded : h.AddsUp generation ∧
      h.handed.map UInt64.toNat = List.range' generation.toNat h.handed.length from
    ⟨hhanded.2, a.next, a.tasks⟩
  refine ofCalls_induction (P := fun _ h => h.AddsUp generation ∧
    h.handed.map UInt64.toNat = List.range' generation.toNat h.handed.length)
    (fun first hfirst => ?_) (fun requests request before after ih hcall => ?_) hs
  · refine ⟨addsUp_start hfirst, ?_⟩
    obtain ⟨-, rfl⟩ := start_eq_ok.mp hfirst
    rfl
  · have hc := change_of_call hcall
    exact ⟨ih.1.change hc, hc.map_toNat_handed ih.2 ih.1.next⟩

/-- What is handed out behind a generation is above it and apart from one another, and a call
overflows only in front of the last generation, where a reservation does. -/
structure IsFresh (greatest : UInt64) (h : History) : Prop where
  counts : h.CountsUp (greatest + 1)
  above : ∀ g ∈ h.handed, greatest < g
  apart : h.handed.Pairwise (· < ·)
  overflows : ∀ {request fault}, h.call request = .error fault →
    fault = .overflow ∧ h.memory.nextGeneration.toNat + 1 = UInt64.size
  ends : h.memory.nextGeneration.toNat + 1 = UInt64.size → h.call .reserve = .error .overflow

theorem CountsUp.above (c : h.CountsUp (greatest + 1)) (hr : greatest.toNat + 1 < UInt64.size) :
    ∀ g ∈ h.handed, greatest < g := by
  intro g hg
  have hm : g.toNat ∈ List.range' (greatest + 1).toNat h.handed.length :=
    c.handed ▸ List.mem_map_of_mem hg
  have hle := (List.mem_range'_1.mp hm).1
  rw [Memory.toNat_next_of_room hr] at hle
  exact UInt64.lt_iff_toNat_lt.mpr hle

theorem isFresh_ofCalls {threshold filterBits : Nat} {requests : List Request}
    (hr : greatest.toNat + 1 < UInt64.size)
    (hs : ofCalls threshold filterBits (greatest + 1) requests = .ok h) : h.IsFresh greatest := by
  have hcounts := countsUp_ofCalls hs
  have hlt : h.memory.nextGeneration.toNat < UInt64.size := h.memory.nextGeneration.toNat_lt_size
  refine ⟨hcounts, hcounts.above hr, (addsUp_ofCalls hs).1.ascending, fun {request _} hc => ?_,
    fun hlast => ?_⟩
  · rcases h.call_cases request with ⟨next, ho, -⟩ | ⟨ho, hlast⟩ <;> rw [hc] at ho
    · simp at ho
    · exact ⟨Except.error.inj ho, by omega⟩
  · have hnone : h.memory.allocate = .error .overflow := Memory.allocate_of_last (by omega)
    rw [call, Memory.perform, hnone]
    rfl

end History

/-! ### Stores -/

namespace Store

variable {s s' start : Store} {cells : List Cell} {settings : Settings} {disk : Disk}

/-- What a step does to the memory is one call of it at most. -/
theorem Step.memory_cases (h : Step s cells s') :
    s'.memory = s.memory ∨ ∃ request, s.memory.perform request = .ok s'.memory := by
  cases h with
  | put h =>
    obtain ⟨memory, hm, rfl⟩ := exists_memory_of_write h
    exact Or.inr ⟨.put _ _ _, hm⟩
  | delete h =>
    obtain ⟨memory, hm, rfl⟩ := exists_memory_of_write h
    exact Or.inr ⟨.delete _ _, hm⟩
  | rotate h =>
    refine Or.inr ⟨.rotate, ?_⟩
    rw [Memory.perform, h]
    rfl
  | close h => exact Or.inr ⟨.close, h⟩
  | work h =>
    cases h with
    | receive hq =>
      refine Or.inr ⟨.take, ?_⟩
      rw [Memory.perform, Memory.take, hq]
      rfl
    | flush hb hf =>
      obtain ⟨disk, tables, rfl, -⟩ := of_flushTable_eq_none hf
      exact Or.inr ⟨.acknowledge _, rfl⟩
    | fail hb hf =>
      obtain ⟨disk, rfl⟩ := of_flushTable_eq_some hf
      exact Or.inl rfl
    | compact =>
      by_cases hr : s.HasRoomFor 1
      swap
      · exact Or.inl (congrArg Store.memory (compact_of_last hr))
      rcases compact_registers s with he | ⟨disk, tables, he, -⟩ <;> rw [he]
      · exact Or.inl rfl
      · refine Or.inr ⟨.reserve, ?_⟩
        rw [Memory.perform, Memory.allocate_of_room hr]
        rfl
  | abandon => exact Or.inl rfl

/-- Steps one after another, with or without generations to spare. -/
inductive Trace (start : Store) : Store → Prop
  | refl : Trace start start
  | step {s s' : Store} {cells : List Cell} : Trace start s → Step s cells s' → Trace start s'

/-- What the memory of a store opened on a disk has done after some calls. -/
def pastOf (settings : Settings) (greatest : UInt64) (requests : List Request) :
    Except Fault History :=
  History.ofCalls settings.flushThreshold settings.filterBits (greatest + 1) requests

/-- Steps leave behind them what calls of the memory leave. -/
theorem Trace.exists_past {greatest : UInt64} (h : Trace start s)
    (hm : ∃ past, pastOf settings greatest [] = .ok past ∧ past.memory = start.memory) :
    ∃ requests past, pastOf settings greatest requests = .ok past ∧ past.memory = s.memory := by
  induction h with
  | refl => exact ⟨[], hm⟩
  | step _ hs ih =>
    obtain ⟨requests, past, hpast, hmemory⟩ := ih
    rcases hs.memory_cases with he | ⟨request, hp⟩
    · exact ⟨requests, past, hpast, hmemory.trans he.symm⟩
    · have hcall : pastOf settings greatest (requests ++ [request]) = past.call request := by
        rw [pastOf, History.ofCalls_concat, ← pastOf, hpast, ok_bind]
      refine ⟨requests ++ [request], ?_⟩
      rw [hcall, History.call, hmemory, hp]
      exact ⟨_, rfl, rfl⟩

end Store

/-- The greatest generation that the names of a disk tell, or zero if they tell none. -/
structure Disk.IsGreatest (disk : Disk) (greatest : UInt64) : Prop where
  le : ∀ {name generation layout}, (disk.find? name).isSome →
    TableName.parse? (disk.pathOf name) = some (generation, layout) → generation ≤ greatest
  named : greatest = 0 ∨ ∃ name layout, (disk.find? name).isSome ∧
    TableName.parse? (disk.pathOf name) = some (greatest, layout)

theorem Disk.IsGreatest.unique {disk : Disk} {greatest other : UInt64}
    (h : disk.IsGreatest greatest) (h' : disk.IsGreatest other) : greatest = other := by
  have hle : ∀ {a b}, disk.IsGreatest a → disk.IsGreatest b → a ≤ b := by
    intro a b ha hb
    rcases ha.named with rfl | ⟨name, layout, hs, hp⟩
    · exact UInt64.zero_le
    · exact hb.le hs hp
  exact UInt64.le_antisymm (hle h h') (hle h' h)

namespace Store

variable {settings : Settings} {disk : Disk}

/-- What opening finds is the greatest generation. -/
theorem exists_isGreatest (disk : Disk) : ∃ greatest, disk.IsGreatest greatest ∧
    (disk.HasRoom ↔ greatest.toNat + 2 < UInt64.size) := by
  have hcovers := Recovery.covers_ofDisk disk.withDirectory
  refine ⟨_, ⟨fun hs hp => ?_, ?_⟩, hasRoom_iff disk⟩
  · exact hcovers.le_greatest ((mem_listing_withDirectory disk _).mpr hs) hp
  · exact hcovers.greatest.imp_right fun ⟨name, hm, layout, hp⟩ =>
      ⟨name, layout, (mem_listing_withDirectory disk name).mp hm, hp⟩

/-- A directory opens exactly when two generations are left behind the greatest one named. The store
then hands out consecutive generations behind that one, to tables and as reservations, whatever the
calls and whatever the steps: they are above all that are named and apart from one another. It goes
on until the last generation but one has been handed out. -/
theorem load_counts_up (hv : settings.validate = .ok ()) (hp : disk.pathFault? = none) :
    ∃ greatest, disk.IsGreatest greatest ∧
      (UInt64.size ≤ greatest.toNat + 2 → load settings disk = .error .overflow) ∧
      (greatest.toNat + 2 < UInt64.size → ∃ s, load settings disk = .ok s ∧
        (∃ past, pastOf settings greatest [] = .ok past ∧ past.memory = s.memory) ∧
        ∀ s', Trace s s' → ∃ requests past,
          pastOf settings greatest requests = .ok past ∧ past.memory = s'.memory) ∧
      ∀ {requests past}, greatest.toNat + 2 < UInt64.size →
        pastOf settings greatest requests = .ok past → past.IsFresh greatest := by
  obtain ⟨greatest, hgreatest, hroom⟩ := exists_isGreatest disk
  refine ⟨greatest, hgreatest, fun hlast => ?_, fun hr => ?_, fun hr hpast => ?_⟩
  · exact load_of_last hv hp fun hr => Nat.not_lt.mpr hlast (hroom.mp ((hasRoom_iff disk).mpr hr))
  · obtain ⟨s, h⟩ := exists_load hv hp (hroom.mpr hr)
    obtain ⟨found, hmemory, -, hle, hnamed⟩ := (opened_of_load h).memory
    obtain rfl := hgreatest.unique ⟨hle, hnamed⟩
    have hfirst : ∃ past, pastOf settings greatest [] = .ok past ∧ past.memory = s.memory := by
      have hnext : (greatest + 1).toNat + 1 < UInt64.size := by
        rw [Memory.toNat_next_of_room (by omega)]
        exact hr
      refine ⟨⟨.empty settings.flushThreshold settings.filterBits (greatest + 1)
        (greatest + 1 + 1), [greatest + 1], [], [], [], []⟩, ?_, hmemory.symm⟩
      rw [pastOf, History.ofCalls, History.start_eq_ok.mpr ⟨hnext, rfl⟩]
      rfl
    exact ⟨s, h, hfirst, fun s' ht => ht.exists_past hfirst⟩
  · exact History.isFresh_ofCalls (by omega) hpast

/-! ### The last generation -/

/-- A directory with a table file of a generation, which cannot be read. -/
def naming (generation : UInt64) : Disk where
  path := "data"
  directory := some ⟨[(TableName.file generation .plain, .file #[])], by simp⟩

theorem isGreatest_naming (generation : UInt64) : (naming generation).IsGreatest generation := by
  have hfile : TableName.parse? ((naming generation).pathOf (TableName.file generation .plain)) =
      some (generation, .plain) := Disk.parse?_file _ _ _
  refine ⟨fun {name g layout} hs hp => ?_, Or.inr ⟨_, .plain, ?_, hfile⟩⟩
  · have hname : name = TableName.file generation .plain := by
      by_contra hne
      simp [naming, Disk.find?, Directory.find?, Ne.symm hne] at hs
    rw [hname, hfile, Option.some.injEq, Prod.mk.injEq] at hp
    exact hp.1 ▸ UInt64.le_refl _
  · simp [naming, Disk.find?, Directory.find?]

/-- Where the last generation but two is named, the store opens, and hands out one. -/
theorem last_but_two_opens : ∃ (s : Store) (past : History),
    load {} (naming 18446744073709551613) = .ok s ∧ past.memory = s.memory ∧
      past.handed = [18446744073709551614] ∧ past.IsFresh 18446744073709551613 ∧
      past.call .reserve = .error .overflow := by
  have hvalid : Settings.validate {} = .ok () := rfl
  have hpath : (naming 18446744073709551613).pathFault? = none := by decide
  obtain ⟨greatest, hgreatest, -, hopens, hfresh⟩ :=
    load_counts_up hvalid hpath
  obtain rfl := hgreatest.unique (isGreatest_naming 18446744073709551613)
  obtain ⟨s, h, ⟨past, hpast, hmemory⟩, -⟩ := hopens (by decide)
  have hpastfresh := hfresh (by decide) hpast
  have hhanded : past.handed = [18446744073709551614] := by
    cases hpast
    rfl
  refine ⟨s, past, h, hmemory, hhanded, hpastfresh, hpastfresh.ends ?_⟩
  rw [hpastfresh.counts.next, hhanded]
  rfl

/-- Where the one behind it is named, the store does not open, although the last generation is
fresh. -/
theorem last_but_one_overflows :
    load {} (naming 18446744073709551614) = .error .overflow ∧
      (naming 18446744073709551614).IsGreatest 18446744073709551614 ∧
      (18446744073709551614 : UInt64) < 18446744073709551615 := by
  have hroom : ¬ (naming 18446744073709551614).HasRoom := by decide +kernel
  exact ⟨load_of_last rfl (by decide) fun hr => hroom ((hasRoom_iff _).mpr hr),
    isGreatest_naming _, by decide⟩

end Store

end TableStore

import TableStore.Proofs.Store.Ledger
import TableStore.Proofs.Store.Refinement

/-! How many generations the life of a directory spends. A write fills at most one table more, and
a compaction leaves at least one table less, so the tables published between two openings are paid
for by the writes made meanwhile and by the tables that were there before. Opening starts again
behind the greatest generation that a name tells, and only a published table adds a name; the
generations of empty tables and of attempts that failed are handed out once more. -/

namespace TableStore

theorem Disk.SameOutside.tells_litter {disk disk' : Disk} {generation other : UInt64}
    (h : disk.SameOutside [TableName.temporary generation] disk') (ht : disk'.Tells other) :
    disk.Tells other := by
  obtain ⟨name, layout, hsome, hp⟩ := ht
  have hne := Disk.ne_temporary_of_parse? hp generation
  rw [h.find? name (by simpa using hne)] at hsome
  exact ⟨name, layout, hsome, Disk.pathOf_congr h.path name ▸ hp⟩

theorem Generations.size_insert_of_fresh {α : Type} (g : Generations α) {generation : UInt64}
    (value : α) (h : g.find? generation = none) :
    (g.insert generation value).size = g.size + 1 := by
  obtain ⟨front, back, hs, hi, -, -⟩ := g.entries_insert_of_fresh value h
  rw [size, size, hs, hi, List.length_append, List.length_append, List.length_cons,
    Nat.add_assoc]

namespace Store

variable {s s' base r : Store} {settings : Settings} {disk : Disk} {cells writes : List Cell}

/-! ### Tables still to be published -/

/-- The number of tasks and active tables with cells, each of which is to become a table on disk. -/
def unpublished (s : Store) : Nat :=
  (s.backlog ++ s.memory.queue).countP (fun task => !task.buffer.isEmpty) +
    (!s.memory.active.isEmpty).toNat

theorem unpublished_turn (s : Store) (final : Bool) :
    ({ s with memory := s.memory.turn final } : Store).unpublished = s.unpublished := by
  have hqueue : (s.memory.turn final).queue =
      s.memory.queue ++ [⟨s.memory.activeGeneration, s.memory.active, final⟩] := rfl
  have hactive : (s.memory.turn final).active.isEmpty = true := rfl
  simp only [unpublished, hqueue, hactive, ← List.append_assoc, List.countP_append,
    List.countP_singleton]
  cases s.memory.active.isEmpty <;> rfl

theorem unpublished_writeOnly_le (s : Store) (cell : Cell) :
    ({ s with memory := s.memory.writeOnly cell } : Store).unpublished ≤ s.unpublished + 1 := by
  have hle := Bool.toNat_le (!(s.memory.writeOnly cell).active.isEmpty)
  have hqueue : (s.memory.writeOnly cell).queue = s.memory.queue := rfl
  simp only [unpublished, hqueue]
  omega

theorem unpublished_write_le {cell : Cell} (h : s.write cell = .ok s') :
    s'.unpublished ≤ s.unpublished + 1 ∧ s'.tables = s.tables ∧ s'.disk = s.disk := by
  obtain ⟨memory, hm, rfl⟩ := exists_memory_of_write h
  have hle := s.unpublished_writeOnly_le cell
  obtain ⟨-, rfl | ⟨-, rfl⟩⟩ := Memory.write_cases hm
  · exact ⟨hle, rfl, rfl⟩
  · refine ⟨?_, rfl, rfl⟩
    rwa [← unpublished_turn { s with memory := s.memory.writeOnly cell } false] at hle

/-- The first task leaves the backlog, when its table has been published or has no cells. -/
theorem unpublished_of_backlog {task : FlushTask} {rest : List FlushTask}
    (hb : s.backlog = task :: rest) (hs : s'.backlog = rest)
    (hq : s'.memory.queue = s.memory.queue) (ha : s'.memory.active = s.memory.active) :
    s.unpublished = s'.unpublished + (!task.buffer.isEmpty).toNat := by
  simp only [unpublished, hb, hs, hq, ha, List.cons_append, List.countP_cons]
  cases task.buffer.isEmpty
  · exact Nat.add_right_comm _ _ _
  · rfl

theorem Opened.unpublished (h : Opened settings disk s) : s.unpublished = 0 := by
  obtain ⟨greatest, hmemory, -⟩ := h.memory
  rw [Store.unpublished, h.backlog, hmemory]
  rfl

/-! ### Every table is paid for -/

/-- What has happened since the store `base` was opened: the tables still to be published come from
the writes; and either no table was published, or the writes pay for all that were. -/
structure IsThrifty (base : Store) (writes : List Cell) (s : Store) : Prop where
  unpublished : s.unpublished ≤ writes.length
  published :
    s.tables.size ≤ base.tables.size ∧ (∀ g, s.disk.Tells g → base.disk.Tells g) ∨
      s.tables.size + 2 * s.unpublished < base.tables.size + 2 * writes.length

theorem Opened.isThrifty (h : Opened settings disk base) : IsThrifty base [] base where
  unpublished := Nat.le_of_eq h.unpublished
  published := Or.inl ⟨Nat.le_refl _, fun _ => id⟩

/-- Nothing is published. -/
theorem IsThrifty.idle (h : IsThrifty base writes s)
    (hu : s'.unpublished ≤ s.unpublished + cells.length) (ht : s'.tables = s.tables)
    (hd : ∀ g, s'.disk.Tells g → s.disk.Tells g) : IsThrifty base (writes ++ cells) s' := by
  have hle := h.unpublished
  refine ⟨?_, ?_⟩
  · rw [List.length_append]
    omega
  · rw [ht, List.length_append]
    refine h.published.imp (fun ⟨hsize, hold⟩ => ⟨hsize, fun g hg => hold g (hd g hg)⟩) ?_
    intro hpaid
    omega

/-- A table is published that a write or other tables pay for. -/
theorem IsThrifty.paid (h : IsThrifty base writes s) (hu : s'.unpublished ≤ s.unpublished)
    (hp : s'.tables.size + 2 * s'.unpublished < s.tables.size + 2 * s.unpublished) :
    IsThrifty base writes s' := by
  have hle := h.unpublished
  refine ⟨Nat.le_trans hu hle, Or.inr ?_⟩
  rcases h.published with ⟨hsize, -⟩ | hpaid <;> omega

theorem IsCoherent.thrifty_flush (hc : s.IsCoherent) (h : IsThrifty base writes s)
    {task : FlushTask} {rest : List FlushTask} (hb : s.backlog = task :: rest)
    (hf : s.flushTable task = (none, s')) :
    IsThrifty base writes { s' with backlog := rest } := by
  by_cases he : task.buffer.isEmpty = true
  · rw [flushTable, if_pos he, Prod.mk.injEq] at hf
    obtain ⟨-, rfl⟩ := hf
    have hcount : s.unpublished =
        { s with memory := s.memory.flushed task.generation, backlog := rest }.unpublished +
          (!task.buffer.isEmpty).toNat :=
      unpublished_of_backlog hb rfl rfl rfl
    exact List.append_nil writes ▸ h.idle (hcount ▸ Nat.le_add_right _ _) rfl fun _ => id
  · have hfull : task.buffer.isEmpty = false := by simpa using he
    have hcells : task.buffer.cells ≠ [] := by simpa [Buffer.isEmpty] using he
    rcases flushTable_cases hc.fits task with ⟨hnil, -⟩ | ⟨_, _, ho, -⟩ | ⟨t, disk, ho, -, -⟩
    · exact absurd hnil hcells
    · rw [ho] at hf
      simp at hf
    · rw [ho, Prod.mk.injEq] at hf
      obtain ⟨-, rfl⟩ := hf
      have hcount : s.unpublished =
          (s.published task rest t disk).unpublished + (!task.buffer.isEmpty).toNat :=
        unpublished_of_backlog hb rfl rfl rfl
      have hsize := s.tables.size_insert_of_fresh t (hc.task_not_registered hb)
      rw [hfull] at hcount
      show IsThrifty base writes (s.published task rest t disk)
      refine h.paid ?_ ?_
      · exact Nat.le_of_lt (Nat.lt_of_succ_le (Nat.le_of_eq hcount.symm))
      · rw [tables_published, hsize, hcount]
        show _ < _ + 2 * (_ + 1)
        omega

theorem IsCoherent.thrifty_compact (hc : s.IsCoherent) (h : IsThrifty base writes s) :
    IsThrifty base writes s.compact.2 := by
  by_cases hfew : s.tables.values.length < 2
  · rwa [show s.compact = (.ok none, s) from if_pos hfew]
  by_cases hr : ¬ s.HasRoomFor 1
  · rwa [compact_of_last hr]
  · rcases compact_cases hc.fits (not_not.mp hr) with ⟨hlt, -⟩ | ⟨fault, disk, ho, hsame⟩ |
      ⟨_, sources, merged, t, disk, _, ho, -, -, -, hgains, -⟩
    · exact absurd hlt hfew
    · rw [ho]
      exact List.append_nil writes ▸ h.idle (Nat.le_refl _) rfl fun _ ht => hsame.tells_litter ht
    · have hsingle : (s.replaced t disk).tables = Generations.empty.insert t.generation t := by
        refine Generations.ext_find? fun generation => ?_
        rw [hc.find?_replaced hgains.generation_eq, Generations.find?_insert,
          Generations.find?_empty]
      have hmany : s.tables.values.length = s.tables.size := List.length_map _
      rw [ho, replaceTables_eq]
      show IsThrifty base writes (s.replaced t disk)
      refine h.paid (Nat.le_refl _) ?_
      rw [hsingle]
      show 1 + 2 * s.unpublished < _
      omega

theorem Step.thrifty (hc : s.IsCoherent) (h : IsThrifty base writes s) (hs : Step s cells s') :
    IsThrifty base (writes ++ cells) s' := by
  cases hs with
  | put hw | delete hw =>
    obtain ⟨hle, htables, hdisk⟩ := unpublished_write_le hw
    exact h.idle hle htables fun _ ht => hdisk ▸ ht
  | rotate hm =>
    refine h.idle ?_ rfl fun _ => id
    obtain ⟨-, ⟨-, -, rfl⟩ | ⟨-, -, -, rfl⟩⟩ := Memory.forceRotate_cases hm
    · exact Nat.le_refl _
    · exact Nat.le_of_eq (unpublished_turn s false)
  | close hm =>
    refine h.idle ?_ rfl fun _ => id
    obtain ⟨-, rfl⟩ | ⟨-, -, rfl⟩ := Memory.close_cases hm
    · exact Nat.le_refl _
    · exact Nat.le_of_eq (unpublished_turn s true)
  | work hw =>
    cases hw with
    | receive hq =>
      refine h.idle (Nat.le_of_eq ?_) rfl fun _ => id
      simp [unpublished, hq]
    | flush hb hf => exact (List.append_nil writes).symm ▸ hc.thrifty_flush h hb hf
    | fail hb hf =>
      rcases flushTable_cases hc.fits _ with ⟨-, ho⟩ | ⟨_, _, ho, hsame⟩ | ⟨_, _, ho, -, -⟩
      · rw [ho] at hf
        simp at hf
      · rw [ho, Prod.mk.injEq] at hf
        obtain ⟨-, rfl⟩ := hf
        exact h.idle (Nat.le_refl _) rfl fun _ ht => hsame.tells_litter ht
      · rw [ho] at hf
        simp at hf
    | compact => exact (List.append_nil writes).symm ▸ hc.thrifty_compact h
  | abandon =>
    refine h.idle ?_ rfl fun _ => id
    simp only [unpublished, List.countP_append, List.countP_nil]
    omega

/-- In a run that begins with an opening, every table published is paid for. -/
theorem Run.isThrifty (hc : base.IsCoherent) (ho : Opened settings disk base)
    (h : Run base writes s) : IsThrifty base writes s := by
  induction h with
  | refl => exact ho.isThrifty
  | step hrun hr hs ih => exact hs.thrifty ((hrun.moves hc.fits).coherent hc) ih

/-! ### Opening again -/

/-- What a store that has just been opened may still cost: the generations in front of its own, and
eight for each table that a compaction may replace. -/
def outlay (s : Store) : Nat := s.memory.nextGeneration.toNat + 8 * s.tables.size

/-- The next generation of a store that has just been opened is the second behind the greatest that
the names tell, or behind zero. -/
theorem Opened.next_cases (h : Opened settings disk s) :
    ∃ greatest : UInt64, s.memory.nextGeneration.toNat = greatest.toNat + 2 ∧
      (greatest = 0 ∨ disk.Tells greatest) ∧ ∀ g, disk.Tells g → g ≤ greatest := by
  obtain ⟨greatest, hmemory, hroom, hle, hgreatest⟩ := h.memory
  have hfirst := Memory.toNat_next_of_room (n := greatest) (by omega)
  refine ⟨greatest, ?_, hgreatest, fun g ⟨name, layout, hsome, hp⟩ => hle hsome hp⟩
  rw [hmemory]
  show (greatest + 1 + 1).toNat = _
  rw [Memory.toNat_next_of_room (by omega), hfirst]

/-- Opening the disk of a store that has handed out a few generations since it was opened itself
costs no more than the writes have paid for. -/
theorem Opened.outlay_le {settings' : Settings} (ho : Opened settings' s.disk r)
    (hbase : Opened settings disk base) (hc : s.IsCoherent) (hm : s.Mirrors)
    (h : IsThrifty base writes s)
    (hfew : s.memory.nextGeneration.toNat ≤ base.memory.nextGeneration.toNat + 4) :
    r.outlay ≤ base.outlay + 16 * writes.length := by
  obtain ⟨old, hnext, -, hold⟩ := hbase.next_cases
  obtain ⟨greatest, hopened, hgreatest, -⟩ := ho.next_cases
  rw [outlay, outlay, hopened, hnext, ho.tables_eq hc hm]
  rcases h.published with ⟨hsize, htells⟩ | hpaid
  · have hle : greatest.toNat ≤ old.toNat := by
      rcases hgreatest with rfl | ht
      · exact Nat.zero_le _
      · obtain ⟨name, layout, hsome, hp⟩ := htells _ ht
        rw [Disk.pathOf_congr hbase.path] at hp
        exact UInt64.le_iff_toNat_le.mp (hold _ ⟨name, layout, hbase.isSome hsome, hp⟩)
    omega
  · have hlt : greatest.toNat < s.memory.nextGeneration.toNat + 1 := by
      rcases hgreatest with rfl | ⟨name, layout, hsome, hp⟩
      · exact Nat.succ_pos _
      · exact Nat.lt_succ_of_lt (UInt64.lt_iff_toNat_lt.mp (hc.spent hsome hp).lt_next)
    omega

end Store

end TableStore

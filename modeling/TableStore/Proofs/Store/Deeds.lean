import TableStore.Proofs.Disk.Tidy
import TableStore.Proofs.Store.Pipeline
import TableStore.Proofs.Store.Visibility

/-! What opening a store and each of its steps do to the files. Opening removes the temporary files
that can be removed and nothing else. A step changes nothing, or publishes one table under the
generation of a pending one or under the next one, and it removes files only when that table stands
for all that were registered. None of this depends on whether the table can be read back, so there
is no bound on the filters. -/

namespace TableStore

/-! ### Opening -/

namespace Recovery

/-- The temporary names of a listing are cleared, the other entries are left alone. -/
theorem disk_foldl_visit (entries : List (String × Entry)) (r : Recovery) :
    (entries.foldl (fun r e => r.visit e.1) r).disk = r.disk.removeFiles
      ((entries.map Prod.fst).filter fun name => TableName.isTemporary (r.disk.pathOf name)) := by
  induction entries generalizing r with
  | nil => rfl
  | cons e entries ih =>
    rw [List.foldl_cons, ih, List.map_cons]
    by_cases ht : TableName.isTemporary (r.disk.pathOf e.1) = true
    · have hvisit : (r.visit e.1).disk = r.disk.removeFile e.1 := by
        rw [Recovery.visit, if_pos ht]
      have hpath := (r.disk.removeFile_sameOutside e.1).path
      rw [hvisit, List.filter_cons_of_pos (by simpa using ht)]
      simp only [Disk.pathOf_congr hpath]
      rfl
    · have hvisit : (r.visit e.1).disk = r.disk := by
        rw [Recovery.visit, if_neg ht]
        split <;> rfl
      rw [hvisit, List.filter_cons_of_neg (by simpa using ht)]

end Recovery

namespace Store

variable {s s' : Store} {settings : Settings} {disk : Disk} {name : String}

theorem disk_of_load (h : load settings disk = .ok s) :
    s.disk = disk.withDirectory.removeFiles ((disk.withDirectory.listing.map Prod.fst).filter
      fun name => TableName.isTemporary (disk.pathOf name)) := by
  obtain ⟨-, -, -, rfl⟩ := load_eq_ok.mp h
  exact Recovery.disk_foldl_visit _ _

theorem isRemovable_withDirectory :
    disk.withDirectory.IsRemovable name ↔ disk.IsRemovable name := by
  rw [Disk.IsRemovable, Disk.IsRemovable, find?_withDirectory]
  rfl

/-- Opening removes a temporary file that can be removed. -/
theorem find?_load_of_isRemovable (h : load settings disk = .ok s)
    (ht : TableName.isTemporary (disk.pathOf name) = true) (hr : disk.IsRemovable name) :
    s.disk.find? name = none := by
  have hr' := isRemovable_withDirectory.mpr hr
  obtain ⟨-, image, hf⟩ := hr'
  rw [disk_of_load h]
  refine Disk.find?_removeFiles_of_isRemovable (List.mem_filter.mpr ⟨?_, ht⟩)
    (isRemovable_withDirectory.mpr hr)
  exact List.mem_map.mpr ⟨(name, .file image), Disk.mem_listing_iff.mpr hf, rfl⟩

/-- It leaves all else alone. -/
theorem find?_load_of_not (h : load settings disk = .ok s)
    (hn : ¬ (TableName.isTemporary (disk.pathOf name) = true ∧ disk.IsRemovable name)) :
    s.disk.find? name = disk.find? name := by
  rw [disk_of_load h, ← find?_withDirectory disk]
  by_cases hr : disk.IsRemovable name
  · refine (Disk.removeFiles_sameOutside _ _).find? name fun hm => hn ⟨?_, hr⟩
    exact (List.mem_filter.mp hm).2
  · exact Disk.find?_removeFiles_of_not_isRemovable (mt isRemovable_withDirectory.mp hr)

end Store

/-! ### What stays known of generations -/

namespace Memory

variable {m m' m'' : Memory}

/-- What is spent stays so, and what is pending stays so until it is spent. -/
structure Keeps (m m' : Memory) : Prop where
  spent : ∀ {generation}, m.IsSpent generation → m'.IsSpent generation
  pending : ∀ {generation buffer}, m.pending.find? generation = some buffer →
    m'.pending.find? generation = some buffer ∨ m'.IsSpent generation

theorem Keeps.refl (m : Memory) : m.Keeps m := ⟨id, Or.inl⟩

theorem Keeps.trans (h : m.Keeps m') (h' : m'.Keeps m'') : m.Keeps m'' where
  spent := fun hs => h'.spent (h.spent hs)
  pending := by
    intro generation buffer hp
    rcases h.pending hp with hp | hs
    · exact h'.pending hp
    · exact Or.inr (h'.spent hs)

theorem keeps_writeOnly (m : Memory) (cell : Cell) : m.Keeps (m.writeOnly cell) :=
  ⟨fun hs => ⟨hs.lt_next, hs.ne_active, hs.not_pending⟩, Or.inl⟩

theorem IsOrdered.keeps_turn (h : m.IsOrdered) (hr : m.nextGeneration.toNat + 1 < UInt64.size)
    (final : Bool) : m.Keeps (m.turn final) where
  spent := fun hs => hs.turn hr final
  pending := by
    intro generation buffer hp
    have hlt := h.pending_lt _ (Generations.mem_entries_iff.mpr hp)
    rw [find?_turn, if_neg (UInt64.ne_of_lt hlt).symm]
    exact Or.inl hp

theorem keeps_spend (hr : m.nextGeneration.toNat + 1 < UInt64.size) : m.Keeps m.spend :=
  ⟨fun hs => hs.spend hr, Or.inl⟩

theorem IsOrdered.keeps_flushed (h : m.IsOrdered) (other : UInt64) :
    m.Keeps (m.flushed other) where
  spent := fun hs => hs.flushed other
  pending := by
    intro generation buffer hp
    by_cases he : other = generation
    · exact Or.inr (he ▸ h.isSpent_flushed (he ▸ hp))
    · refine Or.inl ?_
      show (m.pending.erase other).find? generation = some buffer
      rw [Generations.find?_erase, if_neg he]
      exact hp

end Memory

namespace Store

variable {s s' p : Store} {cells : List Cell} {task : FlushTask}

theorem Step.keeps (h : s.IsPipelined) (hr : s.HasRoomFor 1) (hs : Step s cells s') :
    s.memory.Keeps s'.memory := by
  have hwrite : ∀ {cell s'}, s.write cell = .ok s' → s.memory.Keeps s'.memory := by
    intro cell s' hw
    obtain ⟨memory, hm, rfl⟩ := exists_memory_of_write hw
    obtain ⟨hc, rfl | ⟨-, rfl⟩⟩ := Memory.write_cases hm
    · exact Memory.keeps_writeOnly _ _
    · exact (Memory.keeps_writeOnly _ _).trans ((h.ordered.writeOnly hc cell).keeps_turn hr false)
  cases hs with
  | put hw => exact hwrite hw
  | delete hw => exact hwrite hw
  | rotate hm =>
    obtain ⟨-, ⟨-, -, rfl⟩ | ⟨-, -, -, rfl⟩⟩ := Memory.forceRotate_cases hm
    · exact .refl _
    · exact h.ordered.keeps_turn hr false
  | close hm =>
    obtain ⟨-, rfl⟩ | ⟨-, -, rfl⟩ := Memory.close_cases hm
    · exact .refl _
    · exact h.ordered.keeps_turn hr true
  | work hw =>
    cases hw with
    | receive => exact ⟨fun hs => ⟨hs.lt_next, hs.ne_active, hs.not_pending⟩, Or.inl⟩
    | flush hb hf =>
      obtain ⟨disk, tables, rfl, -⟩ := of_flushTable_eq_none hf
      exact h.ordered.keeps_flushed _
    | fail hb hf =>
      obtain ⟨disk, rfl⟩ := of_flushTable_eq_some hf
      exact .refl _
    | compact =>
      rcases compact_registers s with he | ⟨disk, tables, he, -⟩ <;> rw [he]
      · exact .refl _
      · exact Memory.keeps_spend hr
  | abandon => exact .refl _

theorem Step.settings_eq (hs : Step s cells s') : s'.settings = s.settings := by
  cases hs with
  | put hw | delete hw =>
    obtain ⟨memory, -, rfl⟩ := exists_memory_of_write hw
    rfl
  | rotate | close | abandon => rfl
  | work hw =>
    cases hw with
    | receive => rfl
    | flush hb hf =>
      obtain ⟨disk, tables, rfl, -⟩ := of_flushTable_eq_none hf
      rfl
    | fail hb hf =>
      obtain ⟨disk, rfl⟩ := of_flushTable_eq_some hf
      rfl
    | compact =>
      rcases compact_registers s with he | ⟨disk, tables, he, -⟩ <;> rw [he]

/-! ### Publishing -/

/-- The file that the pending table of a generation makes. -/
def IsDue (s : Store) (generation : UInt64) (image : Array UInt8) : Prop :=
  ∃ buffer d, s.memory.pending.find? generation = some buffer ∧
    (Draft.empty generation s.settings.layout s.settings.filterBits).addAll
      (buffer.cells.map .ok) = .ok d ∧ d.image = image

/-- A pending table always makes the same file. -/
theorem IsDue.unique {generation : UInt64} {image image' : Array UInt8}
    (h : s.IsDue generation image) (h' : s.IsDue generation image') : image = image' := by
  obtain ⟨buffer, d, hp, hd, rfl⟩ := h
  obtain ⟨buffer', d', hp', hd', rfl⟩ := h'
  obtain rfl := Option.some.inj (hp.symm.trans hp')
  rw [Except.ok.inj (hd.symm.trans hd')]

/-- No unfinished table of the generation is in the way. -/
def IsClear (s : Store) (generation : UInt64) : Prop :=
  ¬ s.disk.IsRemovable (TableName.temporary generation)

/-- A disk on which a file stands under the name of a generation, all else being as it was. -/
structure Puts (s : Store) (generation : UInt64) (image : Array UInt8) (disk : Disk) : Prop where
  sameOutside : s.disk.SameOutside [TableName.file generation s.settings.layout] disk
  find? : disk.find? (TableName.file generation s.settings.layout) = some (.file image)

theorem build_tidy (hclear : s.IsClear task.generation)
    (hp : s.memory.pending.find? task.generation = some task.buffer) :
    (∃ fault disk, Draft.build s.disk task.generation s.settings.layout s.settings.filterBits
        (task.buffer.cells.map .ok) = (.error fault, disk) ∧ s.disk.SameOutside [] disk) ∨
    ∃ summary image disk, Draft.build s.disk task.generation s.settings.layout
        s.settings.filterBits (task.buffer.cells.map .ok) = (.ok summary, disk) ∧
      s.IsDue task.generation image ∧ s.Puts task.generation image disk := by
  rcases Draft.publish_tidy s.settings.layout s.settings.filterBits
    (·.addAll (task.buffer.cells.map .ok)) hclear
    (fun _ hd => (Draft.addAll_empty_eq_ok hd).1) with
    hfail | ⟨d, summary, disk, hd, ho, hsame, hfile⟩
  · exact Or.inl hfail
  · exact Or.inr ⟨summary, d.image, disk, ho, ⟨task.buffer, d, hp, hd, rfl⟩, hsame, hfile⟩

theorem publishMerge_tidy (hclear : s.IsClear s.memory.nextGeneration) :
    (∃ fault disk, s.publishMerge = (.error fault, disk) ∧ s.disk.SameOutside [] disk) ∨
    ∃ summary image disk, s.publishMerge = (.ok summary, disk) ∧
      s.Puts s.memory.nextGeneration image disk := by
  rcases Draft.publish_tidy s.settings.layout s.settings.filterBits
    (Draft.fillFrom s.tables.values) hclear (fun _ => Draft.sameForm_of_fillFrom) with
    hfail | ⟨d, summary, disk, -, ho, hsame, hfile⟩
  · exact Or.inl hfail
  · exact Or.inr ⟨summary, d.image, disk, ho, hsame, hfile⟩

/-! ### Deeds -/

/-- The files to be removed when a table has been published: none, or those of all tables that were
registered, which it stands for. -/
def Retires (s : Store) (generation : UInt64) (disk : Disk) (names : List String) : Prop :=
  names = [] ∨ generation = s.memory.nextGeneration ∧
    (∃ summary, s.publishMerge = (.ok summary, disk)) ∧
    ∀ name ∈ names, name ∈ s.tables.values.map Table.fileName

/-- What a step does to the files: nothing, or it publishes a table. Then its generation is spent,
unless the table could not be taken in and stays pending. -/
inductive Deed (s s' : Store) : Prop
  | idle : s.disk.SameOutside [] s'.disk → s'.tables = s.tables → Deed s s'
  | publish {generation : UInt64} {image : Array UInt8} {disk : Disk} {names : List String} :
    (s.IsDue generation image ∨ generation = s.memory.nextGeneration) →
    s.Puts generation image disk → s'.disk = disk.removeFiles names →
    s.Retires generation disk names →
    (s'.memory.IsSpent generation ∨ s.IsDue generation image ∧ s'.memory = s.memory) →
    (∀ g t, s'.tables.find? g = some t → s.tables.find? g = some t ∨
      g = generation ∧ t.fileName = TableName.file generation s.settings.layout) →
    Deed s s'

theorem fileName_of_openTable_file {disk : Disk} {generation : UInt64} {layout : Layout} {t : Table}
    (h : disk.openTable (TableName.file generation layout) = .ok t) :
    t.generation = generation ∧ t.fileName = TableName.file generation layout := by
  obtain ⟨-, found, hp⟩ := Disk.of_openTable_eq_ok h
  rw [Disk.parse?_file, Option.some.injEq, Prod.mk.injEq] at hp
  exact ⟨hp.1.symm, Disk.fileName_of_openTable h (TableName.isEntryName_file _ _)⟩

/-- Flushing the first task. -/
theorem deed_flushTable (h : s.IsPipelined) (hclear : s.IsClear task.generation)
    (hp : s.memory.pending.find? task.generation = some task.buffer) :
    Deed s (s.flushTable task).2 := by
  unfold flushTable
  split
  · exact .idle (.refl _ _) rfl
  · rcases build_tidy hclear hp with
      ⟨fault, disk, hb, hsame⟩ | ⟨summary, image, disk, hb, hdue, hputs⟩ <;> rw [hb]
    · exact .idle hsame rfl
    · dsimp only
      cases ho : disk.openTable (TableName.file task.generation s.settings.layout) with
      | error fault =>
        exact .publish (Or.inl hdue) hputs (disk.removeFiles_nil).symm (Or.inl rfl)
          (Or.inr ⟨hdue, rfl⟩) fun g t ht => Or.inl ht
      | ok t =>
        refine .publish (Or.inl hdue) hputs (disk.removeFiles_nil).symm (Or.inl rfl)
          (Or.inl (h.ordered.isSpent_flushed hp)) fun g other hfound => ?_
        have hfound : (s.tables.insert task.generation t).find? g = some other := hfound
        rw [Generations.find?_insert] at hfound
        split at hfound
        · rename_i hg
          exact Or.inr ⟨hg.symm, Option.some.inj hfound ▸ (fileName_of_openTable_file ho).2⟩
        · exact Or.inl hfound

theorem deed_compact (h : s.IsPipelined) (hr : s.HasRoomFor 1)
    (hclear : s.IsClear s.memory.nextGeneration) : Deed s s.compact.2 := by
  by_cases hfew : s.tables.values.length < 2
  · rw [show s.compact = (.ok none, s) from if_pos hfew]
    exact .idle (.refl _ _) rfl
  · have hspent : s.memory.spend.IsSpent s.memory.nextGeneration :=
      h.ordered.isSpent_spend hr
    rw [compact_of_publishMerge hfew hr]
    rcases publishMerge_tidy hclear with
      ⟨fault, disk, hm, hsame⟩ | ⟨summary, image, disk, hm, hputs⟩ <;> rw [hm]
    · exact .idle hsame rfl
    · dsimp only
      cases ho : disk.openTable (TableName.file s.memory.nextGeneration s.settings.layout) with
      | error fault =>
        exact .publish (Or.inr rfl) hputs (disk.removeFiles_nil).symm (Or.inl rfl)
          (Or.inl hspent) fun g t ht => Or.inl ht
      | ok t =>
        obtain ⟨hgeneration, hname⟩ := fileName_of_openTable_file ho
        dsimp only
        rw [replaceTables_eq]
        refine .publish (Or.inr rfl) hputs rfl (Or.inr ⟨rfl, ⟨summary, hm⟩, fun _ hin => hin⟩)
          (Or.inl hspent) fun g other hfound => ?_
        rcases find?_of_eraseAll_insert hfound with ⟨hg, rfl⟩ | hold
        · exact Or.inr ⟨hg.trans hgeneration, hname⟩
        · exact Or.inl hold

/-- While tasks are kept, the first one's table is pending. -/
theorem IsPipelined.find?_task (h : s.IsPipelined) {rest : List FlushTask}
    (hb : s.backlog = task :: rest) :
    s.memory.pending.find? task.generation = some task.buffer := by
  obtain ⟨tasks, howes⟩ := h.owes
  have hkept := howes.kept_of_mem (List.mem_append_left _ (hb ▸ List.mem_cons_self))
  rw [hb, List.cons_append] at hkept
  rw [← Generations.mem_entries_iff, howes.pending, ← hkept]
  exact List.mem_cons_self

theorem Step.deed (h : s.IsPipelined) (hr : s.HasRoomFor 1) (hclear : ∀ g, s.IsClear g)
    (hs : Step s cells s') : Deed s s' := by
  cases hs with
  | put hw | delete hw =>
    obtain ⟨memory, -, rfl⟩ := exists_memory_of_write hw
    exact .idle (.refl _ _) rfl
  | rotate | close | abandon => exact .idle (.refl _ _) rfl
  | work hw =>
    cases hw with
    | receive => exact .idle (.refl _ _) rfl
    | flush hb hf =>
      -- The task leaves the backlog, which is no matter of files.
      have hdeed := deed_flushTable h (hclear _) (h.find?_task hb)
      rw [hf] at hdeed
      cases hdeed with
      | idle hsame htables => exact .idle hsame htables
      | publish hdue hputs hdisk hretires hspent htables =>
        exact .publish hdue hputs hdisk hretires hspent htables
    | fail hb hf =>
      have hdeed := deed_flushTable h (hclear _) (h.find?_task hb)
      rwa [hf] at hdeed
    | compact => exact deed_compact h hr (hclear _)

end Store

end TableStore

import TableStore.Proofs.Store.Ledger

/-! The footprint of a store on its directory, over any number of openings and steps, whether they
succeed or fail. Opening removes temporary files and touches nothing else. From then on tables are
published under names that were free and generations that were never used; a file with a final name
goes only when the merge of all registered tables, of which it is one, has been published; whatever
else there is stays as it was. Of temporary files only those stay that could not be removed when the
store was opened, because their paths are too long. -/

namespace TableStore

namespace Disk

variable {before after : Disk} {generation : UInt64} {name : String}

/-- Between the two disks the temporary files are gone that can be removed, and nothing else is. -/
structure Cleared (before after : Disk) : Prop where
  path : after.path = before.path
  gone : ∀ {name}, TableName.isTemporary (before.pathOf name) = true → before.IsRemovable name →
    after.find? name = none
  same : ∀ {name}, ¬ (TableName.isTemporary (before.pathOf name) = true ∧
    before.IsRemovable name) → after.find? name = before.find? name

theorem find?_eq_of_directory (h : after.directory = before.directory) (name : String) :
    after.find? name = before.find? name := by rw [find?, h, find?]

theorem isUsable_iff {disk : Disk} : disk.IsUsable ↔ ∀ e ∈ disk.listing,
    Text.Path.IsEntryName e.1 ∧
      ∀ found ∈ TableName.parse? (disk.pathOf e.1), found.1.toNat + 2 < UInt64.size := by
  constructor
  · rintro ⟨hnames, hroom⟩ ⟨name, entry⟩ he
    have hsome : (disk.find? name).isSome := by rw [mem_listing_iff.mp he]; rfl
    exact ⟨hnames hsome, fun found hp => hroom hsome (Option.mem_def.mp hp)⟩
  · intro h
    have hlisted : ∀ {name}, (disk.find? name).isSome → ∃ entry, (name, entry) ∈ disk.listing :=
      fun hsome => (Option.isSome_iff_exists.mp hsome).imp fun _ => mem_listing_iff.mpr
    refine ⟨fun hsome => ?_, fun hsome hp => ?_⟩
    · obtain ⟨entry, he⟩ := hlisted hsome
      exact (h _ he).1
    · obtain ⟨entry, he⟩ := hlisted hsome
      exact (h _ he).2 _ hp

instance (name : String) : Decidable (Text.Path.IsEntryName name) :=
  decidable_of_iff (name.toList ≠ [] ∧ '/' ∉ name.toList ∧ name.toList ≠ Text.Path.stay ∧
    name.toList ≠ Text.Path.back)
    ⟨fun ⟨a, b, c, d⟩ => ⟨a, b, c, d⟩, fun ⟨a, b, c, d⟩ => ⟨a, b, c, d⟩⟩

instance (disk : Disk) : Decidable disk.IsUsable := decidable_of_iff _ isUsable_iff.symm

end Disk

namespace Store

variable {s s' p : Store} {settings : Settings} {disk base base' : Disk} {task : FlushTask}
  {rest : List FlushTask} {log : List (UInt64 × String)} {generation : UInt64} {name : String}
  {entry : Entry}

/-! ### Openings -/

theorem cleared_of_load (h : load settings disk = .ok s) : disk.Cleared s.disk where
  path := (opened_of_load h).path
  gone := find?_load_of_isRemovable h
  same := find?_load_of_not h

theorem fileName_of_registered (hd : disk.IsUsable) (h : load settings disk = .ok s) {t : Table}
    (ht : s.tables.find? generation = some t) :
    t.generation = generation ∧ disk.openTable t.fileName = .ok t := by
  obtain ⟨hg, name, ho⟩ := (opened_of_load h).registered ht
  rw [Disk.fileName_of_openTable ho (hd.names (Disk.isSome_of_openTable ho))]
  exact ⟨hg, ho⟩

/-- All that comes before a generation which the names tell is spent. -/
theorem isSpent_of_tells (h : load settings disk = .ok s) {top : UInt64}
    (ht : disk.Tells top) (hle : generation ≤ top) : s.memory.IsSpent generation := by
  obtain ⟨active, hmemory, -, hroom, hlt⟩ := (opened_of_load h).memory_eq_empty
  obtain ⟨name, layout, hsome, hp⟩ := ht
  rw [hmemory]
  exact Memory.isSpent_empty _ _ hroom (UInt64.lt_of_le_of_lt hle (hlt hsome hp))

namespace Tracked

theorem of_load (hd : disk.IsUsable) (h : load settings disk = .ok s) :
    Tracked disk disk [] s := by
  have hopened := opened_of_load h
  have hcleared := cleared_of_load h
  refine {
    pipelined := hopened.pipelined
    path := hopened.path
    names := fun hsome => hd.names (hopened.isSome hsome)
    tidy := ?_, kept := ?_, added := ?_
    told := fun ht => isSpent_of_tells h (ht.elim id id) (UInt64.le_refl _)
    logged := nofun, apart := nofun
    once := List.nodup_nil
    topped := ?_
    registered := fun ht => Or.inl (fileName_of_registered hd h ht).2 }
  · intro name image ht hf
    by_cases hr : disk.IsRemovable name
    · rw [hcleared.gone ht hr] at hf
      simp at hf
    · rw [hcleared.same fun hn => hr hn.2] at hf
      refine ⟨hf, ?_⟩
      cases hreach : disk.reaches name with
      | false => rfl
      | true => exact absurd ⟨hreach, image, hf⟩ hr
  · intro name entry hf
    by_cases hn : TableName.isTemporary (disk.pathOf name) = true ∧ disk.IsRemovable name
    · exact Or.inr ⟨hcleared.gone hn.1 hn.2, Or.inl hn⟩
    · exact Or.inl ((hcleared.same hn).trans hf)
  · intro name entry hf
    rcases hopened.find? name with he | ⟨-, hnone⟩
    · exact Or.inl (he ▸ hf)
    · simp [hnone] at hf
  · rintro g (⟨name, layout, hsome, hp⟩ | hg)
    · have hnot : ¬ (TableName.isTemporary (disk.pathOf name) = true ∧ disk.IsRemovable name) := by
        rw [TableName.isTemporary_of_parse? hp]
        simp
      refine ⟨g, ⟨name, layout, by rwa [hcleared.same hnot], ?_⟩, UInt64.le_refl _⟩
      rwa [Disk.pathOf_congr hopened.path]
    · simp at hg

/-- Opening the directory again changes nothing: what is temporary is out of reach. -/
theorem find?_reopened (h : Tracked disk base log s) (hpath : base'.path = s.disk.path)
    (hdirectory : base'.directory = s.disk.directory) (hl : load settings base' = .ok s')
    (name : String) : s'.disk.find? name = s.disk.find? name := by
  have hfind := Disk.find?_eq_of_directory hdirectory name
  rw [← hfind]
  refine (cleared_of_load hl).same ?_
  rintro ⟨ht, hreach, image, hf⟩
  have hstart : base'.path = disk.path := hpath.trans h.path
  have hout := (h.tidy (Disk.pathOf_congr hstart name ▸ ht) (hfind ▸ hf)).2
  rw [← Disk.reaches_congr hstart, hreach] at hout
  simp at hout

theorem isUsable_of_eq (h : Tracked disk base log s) (hr : s.HasRoomFor 1)
    (hpath : base'.path = s.disk.path) (hdirectory : base'.directory = s.disk.directory) :
    base'.IsUsable where
  names := fun hsome => h.names (Disk.find?_eq_of_directory hdirectory _ ▸ hsome)
  room := by
    intro name g layout hsome hp
    have htells : s.disk.Tells g :=
      (Disk.tells_congr hpath (Disk.find?_eq_of_directory hdirectory)).mp ⟨name, layout, hsome, hp⟩
    have hlt := UInt64.lt_iff_toNat_lt.mp (h.lt_next htells)
    unfold HasRoomFor at hr
    omega

/-- A table that is found when the store is opened again was there at first or is in the record. -/
theorem registered_reopened (h : Tracked disk base log s) (hr : s.HasRoomFor 1)
    (hpath : base'.path = s.disk.path) (hdirectory : base'.directory = s.disk.directory)
    (hl : load settings base' = .ok s') {t : Table} (ht : s'.tables.find? generation = some t) :
    disk.openTable t.fileName = .ok t ∨ (generation, t.fileName) ∈ log := by
  obtain ⟨hg, ho⟩ := fileName_of_registered (h.isUsable_of_eq hr hpath hdirectory) hl ht
  obtain ⟨entry, hf⟩ := Option.isSome_iff_exists.mp (Disk.isSome_of_openTable ho)
  rcases h.added (Disk.find?_eq_of_directory hdirectory t.fileName ▸ hf) with hold | ⟨g, hlog⟩
  · refine Or.inl ?_
    rw [← ho]
    exact Disk.openTable_congr (hpath.trans h.path).symm (hold.trans hf.symm)
  · obtain ⟨layout, hfile⟩ := (h.logged hlog).1
    dsimp only at hfile
    rw [hfile] at ho
    rw [← hg, (fileName_of_openTable_file ho).1]
    exact Or.inr hlog

theorem reopened (h : Tracked disk base log s) (hr : s.HasRoomFor 1)
    (hpath : base'.path = s.disk.path) (hdirectory : base'.directory = s.disk.directory)
    (hl : load settings base' = .ok s') : Tracked disk base' log s' := by
  have hd := h.isUsable_of_eq hr hpath hdirectory
  have hagain := of_load hd hl
  have hafter := h.find?_reopened hpath hdirectory hl
  have hstart : s'.disk.path = s.disk.path := hagain.path.trans hpath
  -- What is told or was published is no greater than what is told now, so it is spent.
  have hspent : ∀ {g}, disk.Tells g ∨ g ∈ log.map Prod.fst → s'.memory.IsSpent g := by
    intro g hg
    obtain ⟨top, ht, hle⟩ := h.topped hg
    have ht' := (Disk.tells_congr hpath (Disk.find?_eq_of_directory hdirectory)).mpr ht
    exact isSpent_of_tells hl ht' hle
  exact {
    pipelined := hagain.pipelined
    path := hstart.trans h.path
    names := hagain.names
    tidy := fun ht hf => h.tidy ht (hafter _ ▸ hf)
    kept := fun hf => by rw [hafter]; exact h.kept hf
    added := fun hf => h.added (hafter _ ▸ hf)
    told := fun ht => ht.elim (fun ht => hspent (Or.inl ht)) fun ht => hagain.told (Or.inl ht)
    logged := fun he =>
      ⟨(h.logged he).1, Or.inl (hspent (Or.inr (List.mem_map.mpr ⟨_, he, rfl⟩)))⟩
    apart := h.apart
    once := h.once
    topped := fun hg => (h.topped hg).imp fun _ ht =>
      ⟨(Disk.tells_congr hstart hafter).mpr ht.1, ht.2⟩
    registered := h.registered_reopened hr hpath hdirectory hl }

end Tracked

/-- A run adds to the record what its steps publish. -/
theorem Ledger.run {writes : List Cell} (h : Ledger disk base log s) (hrun : Run s writes s') :
    ∃ more, Ledger disk base (log ++ more) s' := by
  induction hrun with
  | refl => exact ⟨[], by rwa [List.append_nil]⟩
  | step _ hr hs ih =>
    obtain ⟨more, hmore⟩ := ih
    exact ⟨_, List.append_assoc .. ▸ hmore.step hr hs⟩

/-! ### In the middle of an operation -/

namespace Tracked

end Tracked

/-! ### The footprint -/

end Store

end TableStore

import TableStore.Proofs.Store.Deeds

/-! A record of what a store publishes over any number of openings and steps, and the invariant that
goes with it. The generations of all tables in the record differ, and none of them is told by a name
of the first disk: whatever is told or was published has been handed out and is not pending, but for
a table that could not be taken in. So nothing stands where the next table goes, and a file is only
removed when the merge of the registered tables, of which it is one, has been published. -/

namespace TableStore

namespace Disk

variable {before after disk : Disk} {generation : UInt64} {name : String}

/-- The name of some entry tells the generation. -/
def Tells (disk : Disk) (generation : UInt64) : Prop :=
  ∃ name layout, (disk.find? name).isSome ∧
    TableName.parse? (disk.pathOf name) = some (generation, layout)

/-- The table files that are on the second disk and were not on the first, each with the generation
that its name tells. -/
def gained (before after : Disk) : List (UInt64 × String) :=
  after.listing.filterMap fun e =>
    if e ∈ before.listing then none
    else (TableName.parse? (after.pathOf e.1)).map fun found => (found.1, e.1)

theorem mem_gained {e : UInt64 × String} : e ∈ before.gained after ↔ ∃ entry layout,
    after.find? e.2 = some entry ∧ before.find? e.2 ≠ some entry ∧
      TableName.parse? (after.pathOf e.2) = some (e.1, layout) := by
  simp only [gained, List.mem_filterMap, Prod.exists, mem_listing_iff, Option.ite_none_left_eq_some,
    Option.map_eq_some_iff]
  constructor
  · rintro ⟨name, entry, hafter, hbefore, g, layout, hp, rfl⟩
    exact ⟨entry, layout, hafter, hbefore, hp⟩
  · rintro ⟨entry, layout, hafter, hbefore, hp⟩
    exact ⟨e.2, entry, hafter, hbefore, e.1, layout, hp, rfl⟩

/-- The names gained differ from one another. -/
theorem pairwise_gained (before after : Disk) :
    (before.gained after).Pairwise fun e e' => e.2 ≠ e'.2 := by
  have hnodup : after.listing.Pairwise fun e e' => e.1 ≠ e'.1 := by
    unfold listing
    cases after.directory with
    | none => exact List.Pairwise.nil
    | some d => exact List.pairwise_map.mp d.nodup
  refine List.Pairwise.filterMap _ (fun e e' hne b hb b' hb' => ?_) hnodup
  have hname : ∀ {e : String × Entry} {b : UInt64 × String}, (if e ∈ before.listing then none
      else (TableName.parse? (after.pathOf e.1)).map fun found => (found.1, e.1)) = some b →
      b.2 = e.1 := by
    intro e b hb
    obtain ⟨-, found, -, rfl⟩ : _ ∧ ∃ found, _ ∧ _ := by
      simpa only [Option.ite_none_left_eq_some, Option.map_eq_some_iff] using hb
    rfl
  rw [hname hb, hname hb']
  exact hne

theorem tells_file {layout : Layout} {entry : Entry}
    (h : disk.find? (TableName.file generation layout) = some entry) : disk.Tells generation :=
  ⟨_, layout, by rw [h]; rfl, disk.parse?_file generation layout⟩

theorem tells_congr (hpath : after.path = before.path)
    (hfind : ∀ name, after.find? name = before.find? name) :
    after.Tells generation ↔ before.Tells generation := by
  simp only [Tells, hfind, pathOf_congr hpath]

/-- What may go: the temporary files that opening removes, and tables. -/
def MayGo (disk : Disk) (name : String) : Prop :=
  (TableName.isTemporary (disk.pathOf name) = true ∧ disk.IsRemovable name) ∨
    ∃ t, disk.openTable name = .ok t

end Disk

namespace Store

variable {s s' p : Store} {cells : List Cell} {settings : Settings} {disk base base' : Disk}
  {log : List (UInt64 × String)} {generation : UInt64} {image : Array UInt8} {name : String}
  {names : List String} {entry : Entry}

/-! ### Openings and steps -/

/-- What has happened since a store was opened on a disk for the first time: the disk that it was
opened on last, and the tables published since the first opening. -/
inductive Ledger (disk : Disk) : Disk → List (UInt64 × String) → Store → Prop
  | opened {settings : Settings} {s : Store} : load settings disk = .ok s → Ledger disk disk [] s
  | step {base : Disk} {log : List (UInt64 × String)} {s s' : Store} {cells : List Cell} :
    Ledger disk base log s → s.HasRoomFor 1 → Step s cells s' →
    Ledger disk base (log ++ s.disk.gained s'.disk) s'
  | reopened {base base' : Disk} {log : List (UInt64 × String)} {s s' : Store}
    {settings : Settings} :
    Ledger disk base log s → s.HasRoomFor 1 → base'.path = s.disk.path →
    base'.directory = s.disk.directory → load settings base' = .ok s' → Ledger disk base' log s'

/-- The file is one of those merged, and the merge stands under its final name. -/
def Supersedes (s : Store) (after : Disk) (name : String) : Prop :=
  name ∈ s.tables.values.map Table.fileName ∧ ∃ summary disk image,
    s.publishMerge = (.ok summary, disk) ∧
    disk.find? (TableName.file s.memory.nextGeneration s.settings.layout) = some (.file image) ∧
    after.find? (TableName.file s.memory.nextGeneration s.settings.layout) = some (.file image)

/-- The entry is there still, or a merge has superseded it. -/
def Lasts (s : Store) (after : Disk) (name : String) (entry : Entry) : Prop :=
  after.find? name = some entry ∨ after.find? name = none ∧ s.Supersedes after name

/-- What is known at every moment. A table that was published is spent, unless it could not be taken
in; then it is still pending, and its file is the one that it makes. -/
structure Tracked (disk base : Disk) (log : List (UInt64 × String)) (s : Store) : Prop where
  pipelined : s.IsPipelined
  path : s.disk.path = disk.path
  names : ∀ {name}, (s.disk.find? name).isSome → Text.Path.IsEntryName name
  tidy : ∀ {name image}, TableName.isTemporary (disk.pathOf name) = true →
    s.disk.find? name = some (.file image) →
    disk.find? name = some (.file image) ∧ disk.reaches name = false
  kept : ∀ {name entry}, disk.find? name = some entry →
    s.disk.find? name = some entry ∨ s.disk.find? name = none ∧ disk.MayGo name
  added : ∀ {name entry}, s.disk.find? name = some entry →
    disk.find? name = some entry ∨ ∃ generation, (generation, name) ∈ log
  told : ∀ {generation}, disk.Tells generation ∨ base.Tells generation →
    s.memory.IsSpent generation
  logged : ∀ {e}, e ∈ log → (∃ layout, e.2 = TableName.file e.1 layout) ∧
    (s.memory.IsSpent e.1 ∨ e.2 = TableName.file e.1 s.settings.layout ∧
      ∃ image, s.IsDue e.1 image ∧ s.disk.find? e.2 = some (.file image))
  apart : ∀ {e}, e ∈ log → ¬ disk.Tells e.1
  once : (log.map Prod.fst).Nodup
  topped : ∀ {generation}, disk.Tells generation ∨ generation ∈ log.map Prod.fst →
    ∃ top, s.disk.Tells top ∧ generation ≤ top
  registered : ∀ {generation t}, s.tables.find? generation = some t →
    disk.openTable t.fileName = .ok t ∨ (generation, t.fileName) ∈ log

theorem IsDue.not_isSpent (h : s.IsDue generation image) : ¬ s.memory.IsSpent generation := by
  obtain ⟨buffer, d, hp, -⟩ := h
  intro hs
  rw [hs.not_pending] at hp
  simp at hp

theorem not_isSpent_next (s : Store) : ¬ s.memory.IsSpent s.memory.nextGeneration :=
  fun h => UInt64.lt_irrefl _ h.lt_next

/-- What is published next has a generation that is not spent. -/
theorem not_isSpent (h : s.IsDue generation image ∨ generation = s.memory.nextGeneration) :
    ¬ s.memory.IsSpent generation := by
  rcases h with hdue | rfl
  · exact hdue.not_isSpent
  · exact s.not_isSpent_next

theorem IsDue.lt_next (h : s.IsDue generation image) (ho : s.memory.IsOrdered) :
    generation < s.memory.nextGeneration := by
  obtain ⟨buffer, d, hp, -⟩ := h
  exact UInt64.lt_trans (ho.pending_lt _ (Generations.mem_entries_iff.mpr hp)) ho.active_lt

namespace Tracked

theorem isClear (h : Tracked disk base log s) (generation : UInt64) : s.IsClear generation := by
  rintro ⟨hreach, image, hfile⟩
  have ht := TableName.isTemporary_join_temporary disk.path generation
  have hout := (h.tidy ht hfile).2
  rw [← Disk.reaches_congr h.path, hreach] at hout
  simp at hout

/-- No registered table has the name of one that is still to be published. -/
theorem file_not_mem (h : Tracked disk base log s) (hnot : ¬ s.memory.IsSpent generation)
    (layout : Layout) :
    TableName.file generation layout ∉ s.tables.values.map Table.fileName := by
  intro hm
  obtain ⟨t, ht, hname⟩ := List.mem_map.mp hm
  obtain ⟨g, hfound⟩ := Generations.mem_values_iff.mp ht
  rcases h.registered hfound with ho | hlog
  · obtain ⟨entry, hf⟩ := Option.isSome_iff_exists.mp (Disk.isSome_of_openTable ho)
    rw [hname] at hf
    exact hnot (h.told (Or.inl (Disk.tells_file hf)))
  · obtain ⟨layout', hfile⟩ := (h.logged hlog).1
    have hg : generation = g := (TableName.file_injective (hname.symm.trans hfile)).1
    exact hnot (hg ▸ h.pipelined.registered g t hfound)

/-- Where a table is to be published there is nothing, unless it was published before and is still
pending. -/
theorem find?_file (h : Tracked disk base log s)
    (hdue : s.IsDue generation image ∨ generation = s.memory.nextGeneration)
    (hf : s.disk.find? (TableName.file generation s.settings.layout) = some entry) :
    entry = .file image := by
  have hnot := not_isSpent hdue
  rcases h.added hf with hold | ⟨g, hlog⟩
  · exact absurd (h.told (Or.inl (Disk.tells_file hold))) hnot
  · obtain ⟨⟨layout', hfile⟩, hspent⟩ := h.logged hlog
    obtain ⟨rfl, -⟩ := TableName.file_injective hfile
    rcases hspent with hspent | ⟨-, image', hdue', hf'⟩
    · exact absurd hspent hnot
    · rcases hdue with hdue | rfl
      · rw [hf, Option.some.injEq] at hf'
        rw [hf', hdue.unique hdue']
      · exact absurd (hdue'.lt_next h.pipelined.ordered) (UInt64.lt_irrefl _)

/-- Publishing a table alters no other file. -/
theorem lasting_puts (h : Tracked disk base log s)
    (hdue : s.IsDue generation image ∨ generation = s.memory.nextGeneration)
    {disk' : Disk} (hputs : s.Puts generation image disk') (hf : s.disk.find? name = some entry) :
    disk'.find? name = some entry := by
  by_cases hn : name = TableName.file generation s.settings.layout
  · subst hn
    rw [hputs.find?, h.find?_file hdue hf]
  · rw [hputs.sameOutside.find? name (by simpa using hn)]
    exact hf

/-- And only tables that it stands for are removed then. -/
theorem lasting_retired (h : Tracked disk base log s)
    (hdue : s.IsDue generation image ∨ generation = s.memory.nextGeneration)
    {disk' : Disk} (hputs : s.Puts generation image disk')
    (hretires : s.Retires generation disk' names) (hf : s.disk.find? name = some entry) :
    s.Lasts (disk'.removeFiles names) name entry := by
  have hput := h.lasting_puts hdue hputs hf
  have hsame := disk'.removeFiles_sameOutside names
  by_cases hm : name ∈ names
  · rcases hretires with rfl | ⟨rfl, ⟨summary, hmerge⟩, hall⟩
    · simp at hm
    · have hout : TableName.file s.memory.nextGeneration s.settings.layout ∉ names :=
        fun hin => h.file_not_mem s.not_isSpent_next _ (hall _ hin)
      rcases disk'.find?_removeFiles_or names name with he | he
      · exact Or.inl (he.trans hput)
      · exact Or.inr ⟨he, hall _ hm, summary, disk', image, hmerge, hputs.find?,
          (hsame.find? _ hout).trans hputs.find?⟩
  · exact Or.inl ((hsame.find? name hm).trans hput)

end Tracked

/-! ### One step further -/

/-- What a step adds and takes away: no file is altered, one that goes was one of those merged, and
one that comes is a table of a generation that was not spent. -/
structure Advances (s s' : Store) : Prop where
  path : s'.disk.path = s.disk.path
  lasting : ∀ {name entry}, s.disk.find? name = some entry → s.Lasts s'.disk name entry
  arriving : ∀ {name entry}, s'.disk.find? name = some entry → s.disk.find? name = some entry ∨
    s.disk.find? name = none ∧ ∃ generation image,
      name = TableName.file generation s.settings.layout ∧ entry = .file image ∧
      ¬ s.memory.IsSpent generation ∧
      (s'.memory.IsSpent generation ∨ s.IsDue generation image ∧ s'.memory = s.memory)
  taken : ∀ {generation t}, s'.tables.find? generation = some t →
    s.tables.find? generation = some t ∨
    t.fileName = TableName.file generation s.settings.layout ∧ ¬ s.memory.IsSpent generation ∧
      (s'.disk.find? t.fileName).isSome

/-- What has come is the table that was published, and it has come where nothing was. -/
theorem Tracked.arriving_publish (h : Tracked disk base log s)
    (hdue : s.IsDue generation image ∨ generation = s.memory.nextGeneration) {disk' : Disk}
    (hputs : s.Puts generation image disk')
    (hf : (disk'.removeFiles names).find? name = some entry) :
    s.disk.find? name = some entry ∨ s.disk.find? name = none ∧
      name = TableName.file generation s.settings.layout ∧ entry = .file image := by
  have hput : disk'.find? name = some entry := by
    rcases disk'.find?_removeFiles_or names name with he | he
    · exact he ▸ hf
    · simp [he] at hf
  by_cases hn : name = TableName.file generation s.settings.layout
  · subst hn
    rw [hputs.find?, Option.some.injEq] at hput
    cases hbefore : s.disk.find? (TableName.file generation s.settings.layout) with
    | none => exact Or.inr ⟨rfl, rfl, hput.symm⟩
    | some old => exact Or.inl (by rw [h.find?_file hdue hbefore, hput])
  · rw [hputs.sameOutside.find? name (by simpa using hn)] at hput
    exact Or.inl hput

theorem Tracked.advances (h : Tracked disk base log s) (hdeed : Deed s s') : Advances s s' := by
  cases hdeed with
  | idle hsame htables =>
    have hfind : ∀ name, s'.disk.find? name = s.disk.find? name := fun name =>
      hsame.find? name (by simp)
    refine ⟨hsame.path, fun hf => Or.inl ((hfind _).trans hf), fun hf => Or.inl ?_,
      fun ht => Or.inl (htables ▸ ht)⟩
    rw [← hfind]
    exact hf
  | @publish generation image disk' names hdue hputs hdisk hretires hspent htables =>
    have hnot := not_isSpent hdue
    have hout : TableName.file generation s.settings.layout ∉ names := by
      rcases hretires with rfl | ⟨-, -, hall⟩
      · simp
      · exact fun hin => h.file_not_mem hnot _ (hall _ hin)
    have hremoved := disk'.removeFiles_sameOutside names
    refine ⟨?_, fun hf => ?_, fun {name entry} hf => ?_, fun {g t} ht => ?_⟩
    · rw [hdisk]
      exact hremoved.path.trans hputs.sameOutside.path
    · rw [hdisk]
      exact h.lasting_retired hdue hputs hretires hf
    · rw [hdisk] at hf
      exact (h.arriving_publish hdue hputs hf).imp_right fun ⟨hnone, hname, hentry⟩ =>
        ⟨hnone, generation, image, hname, hentry, hnot, hspent⟩
    · rcases htables g t ht with hold | ⟨rfl, hname⟩
      · exact Or.inl hold
      · refine Or.inr ⟨hname, hnot, ?_⟩
        rw [hdisk, hname, hremoved.find? _ hout, hputs.find?]
        rfl

/-- What was pending and had its file is so still, or it is spent. -/
theorem IsDue.keeps (h : s.IsDue generation image) (hk : s.memory.Keeps s'.memory)
    (hsettings : s'.settings = s.settings) :
    s'.memory.IsSpent generation ∨ s'.IsDue generation image := by
  obtain ⟨buffer, d, hp, hd, himage⟩ := h
  rcases hk.pending hp with hp | hs
  · exact Or.inr ⟨buffer, d, hp, by rw [hsettings]; exact hd, himage⟩
  · exact Or.inl hs

namespace Tracked

/-- All generations that names tell have been handed out. -/
theorem lt_next (h : Tracked disk base log s) (ht : s.disk.Tells generation) :
    generation < s.memory.nextGeneration := by
  obtain ⟨name, layout, hsome, hp⟩ := ht
  obtain ⟨entry, hf⟩ := Option.isSome_iff_exists.mp hsome
  rw [Disk.pathOf_congr h.path] at hp
  rcases h.added hf with hold | ⟨g, hlog⟩
  · exact (h.told (Or.inl ⟨name, layout, by rw [hold]; rfl, hp⟩)).lt_next
  · obtain ⟨⟨layout', hfile⟩, hspent⟩ := h.logged hlog
    dsimp only at hfile
    rw [hfile, Disk.parse?_file, Option.some.injEq, Prod.mk.injEq] at hp
    obtain ⟨rfl, -⟩ := hp
    rcases hspent with hspent | ⟨-, image, hdue, -⟩
    · exact hspent.lt_next
    · exact hdue.lt_next h.pipelined.ordered

/-- A table that a step has gained. -/
theorem of_mem_gained (h : Advances s s') {e : UInt64 × String}
    (he : e ∈ s.disk.gained s'.disk) :
    s.disk.find? e.2 = none ∧ e.2 = TableName.file e.1 s.settings.layout ∧
      ¬ s.memory.IsSpent e.1 ∧ ∃ image, s'.disk.find? e.2 = some (.file image) ∧
      (s'.memory.IsSpent e.1 ∨ s.IsDue e.1 image ∧ s'.memory = s.memory) := by
  obtain ⟨entry, layout, hafter, hbefore, hp⟩ := Disk.mem_gained.mp he
  rcases h.arriving hafter with hold | ⟨hnone, g, image, hname, rfl, hnot, hspent⟩
  · exact absurd hold hbefore
  · rw [hname, Disk.parse?_file, Option.some.injEq, Prod.mk.injEq] at hp
    obtain ⟨rfl, -⟩ := hp
    exact ⟨hnone, hname, hnot, image, hafter, hspent⟩

theorem mem_gained_of_arriving (h : Advances s s')
    (hf : s'.disk.find? (TableName.file generation s.settings.layout) = some entry)
    (hnone : s.disk.find? (TableName.file generation s.settings.layout) = none) :
    (generation, TableName.file generation s.settings.layout) ∈ s.disk.gained s'.disk :=
  Disk.mem_gained.mpr ⟨entry, s.settings.layout, hf, by simp [hnone],
    by rw [Disk.pathOf_congr h.path]; exact Disk.parse?_file _ _ _⟩

/-- A generation in the record is not published again. -/
theorem ne_of_mem_gained (h : Tracked disk base log s) (ha : Advances s s')
    {e e' : UInt64 × String} (he : e ∈ log) (he' : e' ∈ s.disk.gained s'.disk) : e.1 ≠ e'.1 := by
  obtain ⟨hnone, hname, hnot, -⟩ := of_mem_gained ha he'
  intro hg
  rcases (h.logged he).2 with hspent | ⟨hfile, image, -, hf⟩
  · exact hnot (hg ▸ hspent)
  · rw [hfile, hg, ← hname, hnone] at hf
    simp at hf

/-- A generation that is not spent is not told by the first disk. -/
theorem not_tells (h : Tracked disk base log s) (hnot : ¬ s.memory.IsSpent generation) :
    ¬ disk.Tells generation := fun ht => hnot (h.told (Or.inl ht))

theorem kept_step (h : Tracked disk base log s) (ha : Advances s s')
    (hf : disk.find? name = some entry) :
    s'.disk.find? name = some entry ∨ s'.disk.find? name = none ∧ disk.MayGo name := by
  rcases h.kept hf with hsame | ⟨hnone, hgo⟩
  · rcases ha.lasting hsame with hlast | ⟨hnone, hm, -⟩
    · exact Or.inl hlast
    · -- What a merge supersedes is registered: a table of the first disk, or one of the record.
      refine Or.inr ⟨hnone, ?_⟩
      obtain ⟨t, ht, rfl⟩ := List.mem_map.mp hm
      obtain ⟨g, hfound⟩ := Generations.mem_values_iff.mp ht
      rcases h.registered hfound with ho | hlog
      · exact Or.inr ⟨t, ho⟩
      · obtain ⟨layout, hfile⟩ := (h.logged hlog).1
        dsimp only at hfile
        rw [hfile] at hf
        exact absurd (Disk.tells_file hf) (h.apart hlog)
  · refine Or.inr ⟨?_, hgo⟩
    cases hafter : s'.disk.find? name with
    | none => rfl
    | some other =>
      rcases ha.arriving hafter with hold | ⟨-, g, _, rfl, -, hnot, -⟩
      · simp [hnone] at hold
      · exact absurd (Disk.tells_file hf) (h.not_tells hnot)

/-- What is in the record stays as it should be: a table that was pending is so still, with its
file, or it is spent. -/
theorem logged_step (h : Tracked disk base log s) (ha : Advances s s')
    (hkeeps : s.memory.Keeps s'.memory) (hsettings : s'.settings = s.settings)
    {e : UInt64 × String} (he : e ∈ log) :
    s'.memory.IsSpent e.1 ∨ e.2 = TableName.file e.1 s'.settings.layout ∧
      ∃ image, s'.IsDue e.1 image ∧ s'.disk.find? e.2 = some (.file image) := by
  rcases (h.logged he).2 with hspent | ⟨hfile, image, hdue, hf⟩
  · exact Or.inl (hkeeps.spent hspent)
  · rcases hdue.keeps hkeeps hsettings with hspent | hdue'
    · exact Or.inl hspent
    · refine Or.inr ⟨by rw [hsettings]; exact hfile, image, hdue', ?_⟩
      rcases ha.lasting hf with hlast | ⟨-, hm, -⟩
      · exact hlast
      · rw [hfile] at hm
        exact absurd hm (h.file_not_mem hdue.not_isSpent _)

theorem once_step (h : Tracked disk base log s) (ha : Advances s s') :
    ((log ++ s.disk.gained s'.disk).map Prod.fst).Nodup := by
  rw [List.map_append, List.nodup_append]
  refine ⟨h.once, ?_, ?_⟩
  · refine List.pairwise_map.mpr ((s.disk.pairwise_gained s'.disk).imp_of_mem ?_)
    intro e e' he he' hne hg
    exact hne (by rw [(of_mem_gained ha he).2.1, (of_mem_gained ha he').2.1, hg])
  · intro g hg g' hg'
    obtain ⟨e, he, rfl⟩ := List.mem_map.mp hg
    obtain ⟨e', he', rfl⟩ := List.mem_map.mp hg'
    exact h.ne_of_mem_gained ha he he'

/-- A name that tells a generation goes only when one with a greater generation has come. -/
theorem exists_tells (h : Tracked disk base log s) (ha : Advances s s')
    (ht : s.disk.Tells generation) : ∃ top, s'.disk.Tells top ∧ generation ≤ top := by
  have hlt := h.lt_next ht
  obtain ⟨name, layout, hsome, hp⟩ := ht
  obtain ⟨entry, hf⟩ := Option.isSome_iff_exists.mp hsome
  rcases ha.lasting hf with hlast | ⟨-, -, _, _, _, -, -, hmerged⟩
  · exact ⟨generation, ⟨name, layout, by rw [hlast]; rfl,
      by rw [Disk.pathOf_congr ha.path]; exact hp⟩, UInt64.le_refl _⟩
  · exact ⟨_, Disk.tells_file hmerged, UInt64.le_of_lt hlt⟩

theorem topped_step (h : Tracked disk base log s) (ha : Advances s s')
    (hg : disk.Tells generation ∨ generation ∈ (log ++ s.disk.gained s'.disk).map Prod.fst) :
    ∃ top, s'.disk.Tells top ∧ generation ≤ top := by
  rw [List.map_append, List.mem_append, ← or_assoc] at hg
  rcases hg with hg | hg
  · obtain ⟨top, ht, hle⟩ := h.topped hg
    obtain ⟨higher, ht', hle'⟩ := h.exists_tells ha ht
    exact ⟨higher, ht', UInt64.le_trans hle hle'⟩
  · obtain ⟨e, he, rfl⟩ := List.mem_map.mp hg
    obtain ⟨-, hname, -, image, hf, -⟩ := of_mem_gained ha he
    exact ⟨e.1, Disk.tells_file (hname ▸ hf), UInt64.le_refl _⟩

theorem registered_step (h : Tracked disk base log s) (ha : Advances s s') {t : Table}
    (hfound : s'.tables.find? generation = some t) :
    disk.openTable t.fileName = .ok t ∨
      (generation, t.fileName) ∈ log ++ s.disk.gained s'.disk := by
  rcases ha.taken hfound with hold | ⟨hname, hnot, hsome⟩
  · exact (h.registered hold).imp_right fun hlog => List.mem_append_left _ hlog
  · refine Or.inr ?_
    obtain ⟨entry, hf⟩ := Option.isSome_iff_exists.mp hsome
    rw [hname] at hf ⊢
    cases hbefore : s.disk.find? (TableName.file generation s.settings.layout) with
    | none => exact List.mem_append_right _ (mem_gained_of_arriving ha hf hbefore)
    | some old =>
      rcases h.added hbefore with hold | ⟨g, hlog⟩
      · exact absurd (Disk.tells_file hold) (h.not_tells hnot)
      · obtain ⟨layout, hfile⟩ := (h.logged hlog).1
        obtain ⟨rfl, -⟩ := TableName.file_injective hfile
        exact List.mem_append_left _ hlog

theorem step (h : Tracked disk base log s) (hr : s.HasRoomFor 1) (hs : Step s cells s') :
    Tracked disk base (log ++ s.disk.gained s'.disk) s' := by
  have hkeeps := hs.keeps h.pipelined hr
  have hsettings := hs.settings_eq
  have ha := h.advances (hs.deed h.pipelined hr h.isClear)
  refine {
    pipelined := hs.pipelined h.pipelined hr
    path := ha.path.trans h.path
    names := ?_, tidy := ?_
    kept := h.kept_step ha
    added := ?_
    told := fun ht => hkeeps.spent (h.told ht)
    logged := ?_, apart := ?_
    once := h.once_step ha
    topped := h.topped_step ha
    registered := h.registered_step ha }
  · intro name hsome
    obtain ⟨entry, hf⟩ := Option.isSome_iff_exists.mp hsome
    rcases ha.arriving hf with hold | ⟨-, g, _, rfl, -⟩
    · exact h.names (by rw [hold]; rfl)
    · exact TableName.isEntryName_file _ _
  · intro name image ht hf
    rcases ha.arriving hf with hold | ⟨-, g, _, rfl, -⟩
    · exact h.tidy ht hold
    · rw [TableName.isTemporary_of_parse? (disk.parse?_file g s.settings.layout)] at ht
      simp at ht
  · intro name entry hf
    rcases ha.arriving hf with hold | ⟨hnone, g, _, rfl, -⟩
    · exact (h.added hold).imp_right fun ⟨g, hlog⟩ => ⟨g, List.mem_append_left _ hlog⟩
    · exact Or.inr ⟨g, List.mem_append_right _ (mem_gained_of_arriving ha hf hnone)⟩
  · intro e he
    rcases List.mem_append.mp he with he | he
    · exact ⟨(h.logged he).1, h.logged_step ha hkeeps hsettings he⟩
    · obtain ⟨-, hname, -, image, hf, hspent⟩ := of_mem_gained ha he
      refine ⟨⟨_, hname⟩, hspent.imp_right fun ⟨hdue, hmemory⟩ => ?_⟩
      refine ⟨by rw [hsettings]; exact hname, image, ?_, hf⟩
      rw [IsDue, hmemory, hsettings]
      exact hdue
  · intro e he
    rcases List.mem_append.mp he with he | he
    · exact h.apart he
    · exact h.not_tells (of_mem_gained ha he).2.2.1

end Tracked

end Store

end TableStore

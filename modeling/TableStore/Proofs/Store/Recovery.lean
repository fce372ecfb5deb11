import TableStore.Proofs.Disk.Published
import TableStore.Proofs.Memory.Order

/-! What opening a store finds. The fold over the listing keeps, for the entries visited so far:
the disk differs from the given one at most in temporary files that are gone, every registered
table opens under some name, every name that opens has its generation registered, and no name
passes the greatest generation. -/

namespace TableStore

namespace Recovery

/-- What has been found after some of the names of a disk were visited. -/
structure Covers (disk : Disk) (names : List String) (r : Recovery) : Prop where
  path : r.disk.path = disk.path
  find? : ∀ name, r.disk.find? name = disk.find? name ∨
    TableName.isTemporary (disk.pathOf name) = true ∧ r.disk.find? name = none
  registered : ∀ {generation t}, r.tables.find? generation = some t →
    t.generation = generation ∧ ∃ name, disk.openTable name = .ok t
  opened : ∀ {name t}, name ∈ names → disk.openTable name = .ok t →
    ∃ t', r.tables.find? t.generation = some t'
  le_greatest : ∀ {name generation layout}, name ∈ names →
    TableName.parse? (disk.pathOf name) = some (generation, layout) → generation ≤ r.greatest
  greatest : r.greatest = 0 ∨ ∃ name ∈ names, ∃ layout,
    TableName.parse? (disk.pathOf name) = some (r.greatest, layout)

variable {disk : Disk} {names : List String} {r : Recovery}

theorem openTable_of_find? {disk' : Disk} (hp : disk'.path = disk.path) {name : String}
    (hf : disk'.find? name = disk.find? name ∨
      TableName.isTemporary (disk.pathOf name) = true ∧ disk'.find? name = none) :
    disk'.openTable name = disk.openTable name := by
  rcases hf with hf | ⟨ht, -⟩
  · exact Disk.openTable_congr hp hf
  · have hn := TableName.parse?_of_isTemporary ht
    rw [Disk.openTable_of_parse? hn, Disk.openTable_of_parse? (by rw [Disk.pathOf_congr hp, hn]),
      Disk.pathOf_congr hp]

theorem Covers.openTable (h : Covers disk names r) (name : String) :
    r.disk.openTable name = disk.openTable name := openTable_of_find? h.path (h.find? name)

/-- A name that is no table's adds nothing to what has to be found. -/
theorem Covers.skip (h : Covers disk names r) {name : String}
    (hn : TableName.parse? (disk.pathOf name) = none) : Covers disk (names ++ [name]) r where
  path := h.path
  find? := h.find?
  registered := h.registered
  opened := by
    intro other t hm ho
    rw [List.mem_append, List.mem_singleton] at hm
    rcases hm with hm | rfl
    · exact h.opened hm ho
    · rw [Disk.openTable_of_parse? hn] at ho
      simp at ho
  le_greatest := by
    intro other generation layout hm hp
    rw [List.mem_append, List.mem_singleton] at hm
    rcases hm with hm | rfl
    · exact h.le_greatest hm hp
    · simp [hn] at hp
  greatest := h.greatest.imp_right fun ⟨other, hm, hp⟩ => ⟨other, List.mem_append_left _ hm, hp⟩

/-- The file of an unfinished table is removed. -/
theorem Covers.tidy (h : Covers disk names r) {name : String}
    (ht : TableName.isTemporary (disk.pathOf name) = true) :
    Covers disk names { r with disk := r.disk.removeFile name } := by
  have hs := r.disk.removeFile_sameOutside name
  refine ⟨hs.path.trans h.path, fun other => ?_, h.registered, h.opened, h.le_greatest,
    h.greatest⟩
  by_cases ho : other = name
  · subst ho
    rcases r.disk.find?_removeFile_or other other with he | he
    · exact he ▸ h.find? other
    · exact Or.inr ⟨ht, he⟩
  · rw [hs.find? other (by simpa using ho)]
    exact h.find? other

/-- A table that opens is registered. -/
theorem Covers.register (h : Covers disk names r) {name : String} {t : Table}
    (ho : disk.openTable name = .ok t) :
    Covers disk names { r with tables := r.tables.insert t.generation t } where
  path := h.path
  find? := h.find?
  registered := by
    intro generation other hfound
    rw [Generations.find?_insert] at hfound
    split at hfound
    · rename_i hg
      obtain rfl := Option.some.inj hfound
      exact ⟨hg, name, ho⟩
    · exact h.registered hfound
  opened := by
    intro other u hm hu
    dsimp only
    rw [Generations.find?_insert]
    split
    · exact ⟨t, rfl⟩
    · exact h.opened hm hu
  le_greatest := h.le_greatest
  greatest := h.greatest

/-- The generation that a name tells is taken note of. -/
theorem Covers.note (h : Covers disk names r) {name : String} {generation : UInt64}
    {layout : Layout} (hp : TableName.parse? (disk.pathOf name) = some (generation, layout))
    (hin : ∀ t, disk.openTable name = .ok t → ∃ t', r.tables.find? t.generation = some t') :
    Covers disk (names ++ [name]) { r with greatest := max r.greatest generation } where
  path := h.path
  find? := h.find?
  registered := h.registered
  opened := by
    intro other t hm ho
    rw [List.mem_append, List.mem_singleton] at hm
    rcases hm with hm | rfl
    · exact h.opened hm ho
    · exact hin t ho
  le_greatest := by
    intro other g l hm hg
    dsimp only
    rw [List.mem_append, List.mem_singleton] at hm
    have hle : r.greatest ≤ max r.greatest generation ∧ generation ≤ max r.greatest generation := by
      rcases max_generation_cases r.greatest generation with ⟨he, hle⟩ | ⟨he, hle⟩ <;> rw [he]
      · exact ⟨UInt64.le_refl _, hle⟩
      · exact ⟨hle, UInt64.le_refl _⟩
    rcases hm with hm | rfl
    · exact UInt64.le_trans (h.le_greatest hm hg) hle.1
    · rw [hp, Option.some.injEq, Prod.mk.injEq] at hg
      exact hg.1 ▸ hle.2
  greatest := by
    dsimp only
    rcases max_generation_cases r.greatest generation with ⟨he, -⟩ | ⟨he, -⟩ <;> rw [he]
    · exact h.greatest.imp_right fun ⟨other, hm, hp⟩ => ⟨other, List.mem_append_left _ hm, hp⟩
    · exact Or.inr ⟨name, List.mem_append_right _ List.mem_cons_self, layout, hp⟩

theorem Covers.visit (h : Covers disk names r) (name : String) :
    Covers disk (names ++ [name]) (r.visit name) := by
  unfold Recovery.visit
  rw [Disk.pathOf_congr h.path name]
  by_cases ht : TableName.isTemporary (disk.pathOf name) = true
  · rw [if_pos ht]
    exact (h.tidy ht).skip (TableName.parse?_of_isTemporary ht)
  · rw [if_neg ht]
    cases hp : TableName.parse? (disk.pathOf name) with
    | none => exact h.skip hp
    | some found =>
      obtain ⟨generation, layout⟩ := found
      dsimp only
      rw [h.openTable]
      cases ho : disk.openTable name with
      | error fault => exact h.note hp (by simp [ho])
      | ok t =>
        obtain ⟨-, layout', hp'⟩ := Disk.of_openTable_eq_ok ho
        rw [hp, Option.some.injEq, Prod.mk.injEq] at hp'
        obtain ⟨rfl, -⟩ := hp'
        have hin : ∀ u, disk.openTable name = .ok u →
            ∃ t', (r.tables.insert t.generation t).find? u.generation = some t' := by
          intro u hu
          rw [ho, Except.ok.injEq] at hu
          exact ⟨t, by rw [hu, Generations.find?_insert, if_pos rfl]⟩
        exact (h.register ho).note hp hin

theorem covers_ofDisk (disk : Disk) :
    Covers disk (disk.listing.map Prod.fst) (ofDisk disk) := by
  have hfold : ∀ (entries : List (String × Entry)) (names : List String) (r : Recovery),
      Covers disk names r →
      Covers disk (names ++ entries.map Prod.fst) (entries.foldl (fun r e => r.visit e.1) r) := by
    intro entries
    induction entries with
    | nil => intro names r h; simpa using h
    | cons e entries ih =>
      intro names r h
      have := ih _ _ (h.visit e.1)
      simpa using this
  exact hfold disk.listing [] ⟨disk, .empty, 0⟩
    ⟨rfl, fun _ => Or.inl rfl, by simp, by simp, by simp, Or.inl rfl⟩

end Recovery

/-- Behind every generation that a name tells there are two more. -/
def Disk.HasRoom (disk : Disk) : Prop :=
  ∀ {name generation layout}, (disk.find? name).isSome →
    TableName.parse? (disk.pathOf name) = some (generation, layout) →
    generation.toNat + 2 < UInt64.size

namespace Store

/-! ### Opening -/

/-- A store that has just been opened on a disk: nothing is in memory, the tables are those that
open, and the generations start behind the greatest one named. -/
structure Opened (settings : Settings) (disk : Disk) (s : Store) : Prop where
  settings_eq : s.settings = settings
  path : s.disk.path = disk.path
  find? : ∀ name, s.disk.find? name = disk.find? name ∨
    TableName.isTemporary (disk.pathOf name) = true ∧ s.disk.find? name = none
  registered : ∀ {generation t}, s.tables.find? generation = some t →
    t.generation = generation ∧ ∃ name, disk.openTable name = .ok t
  opened : ∀ {name t}, disk.openTable name = .ok t →
    ∃ t', s.tables.find? t.generation = some t'
  memory : ∃ greatest,
    s.memory = Memory.empty settings.flushThreshold settings.filterBits (greatest + 1)
      (greatest + 1 + 1) ∧ greatest.toNat + 2 < UInt64.size ∧
    (∀ {name generation layout}, (disk.find? name).isSome →
      TableName.parse? (disk.pathOf name) = some (generation, layout) → generation ≤ greatest) ∧
    (greatest = 0 ∨ ∃ name layout, (disk.find? name).isSome ∧
      TableName.parse? (disk.pathOf name) = some (greatest, layout))
  backlog : s.backlog = []

theorem pathFault?_congr {disk disk' : Disk} (h : disk'.path = disk.path) :
    disk'.pathFault? = disk.pathFault? := by
  unfold Disk.pathFault?
  rw [h]

theorem find?_withDirectory (disk : Disk) (name : String) :
    disk.withDirectory.find? name = disk.find? name := by
  unfold Disk.withDirectory Disk.find?
  cases disk.directory <;> rfl

theorem openTable_withDirectory (disk : Disk) (name : String) :
    disk.withDirectory.openTable name = disk.openTable name :=
  Disk.openTable_congr rfl (find?_withDirectory disk name)

theorem mem_listing_withDirectory (disk : Disk) (name : String) :
    name ∈ disk.withDirectory.listing.map Prod.fst ↔ (disk.find? name).isSome := by
  rw [← find?_withDirectory, Option.isSome_iff_exists]
  simp [← Disk.mem_listing_iff]

/-- The store over what was found in a directory. -/
def ofRecovery (settings : Settings) (found : Recovery) : Store where
  settings := settings
  disk := found.disk
  memory := Memory.empty settings.flushThreshold settings.filterBits (found.greatest + 1)
    (found.greatest + 1 + 1)
  tables := found.tables
  backlog := []

/-- A store opens under valid settings and a usable path when two generations are left behind those
named: one for its active table, one to be the next. -/
theorem load_of_room {settings : Settings} {disk : Disk} (hv : settings.validate = .ok ())
    (hp : disk.pathFault? = none)
    (hr : (Recovery.ofDisk disk.withDirectory).greatest.toNat + 2 < UInt64.size) :
    load settings disk = .ok (ofRecovery settings (Recovery.ofDisk disk.withDirectory)) := by
  have hfirst := Memory.toNat_next_of_room (Nat.lt_of_succ_lt hr)
  rw [load, hv, ok_bind, Disk.makeDirectory, hp, ok_bind]
  dsimp only
  rw [Memory.generationAfter_of_room (Nat.lt_of_succ_lt hr), ok_bind,
    Memory.startAt_of_room _ _ (by rw [hfirst]; exact hr)]
  rfl

/-- Otherwise the count of the generations overflows. -/
theorem load_of_last {settings : Settings} {disk : Disk} (hv : settings.validate = .ok ())
    (hp : disk.pathFault? = none)
    (hr : ¬ (Recovery.ofDisk disk.withDirectory).greatest.toNat + 2 < UInt64.size) :
    load settings disk = .error .overflow := by
  rw [load, hv, ok_bind, Disk.makeDirectory, hp, ok_bind]
  dsimp only
  by_cases hfirst : (Recovery.ofDisk disk.withDirectory).greatest.toNat + 1 < UInt64.size
  · have hlast : ¬ ((Recovery.ofDisk disk.withDirectory).greatest + 1).toNat + 1 < UInt64.size := by
      rw [Memory.toNat_next_of_room hfirst]
      exact hr
    rw [Memory.generationAfter_of_room hfirst, ok_bind, Memory.startAt_of_last _ _ hlast]
    rfl
  · rw [Memory.generationAfter_of_last hfirst]
    rfl

theorem load_eq_ok {settings : Settings} {disk : Disk} {s : Store} :
    load settings disk = .ok s ↔ settings.validate = .ok () ∧ disk.pathFault? = none ∧
      (Recovery.ofDisk disk.withDirectory).greatest.toNat + 2 < UInt64.size ∧
      s = ofRecovery settings (Recovery.ofDisk disk.withDirectory) := by
  constructor
  · intro h
    obtain ⟨_, hv, h'⟩ := bind_eq_ok.mp h
    obtain ⟨made, hp, -⟩ := bind_eq_ok.mp h'
    have hpath : disk.pathFault? = none := by
      unfold Disk.makeDirectory at hp
      cases hf : disk.pathFault? with
      | none => rfl
      | some cause => simp [hf] at hp
    by_cases hr : (Recovery.ofDisk disk.withDirectory).greatest.toNat + 2 < UInt64.size
    · rw [load_of_room hv hpath hr, Except.ok.injEq] at h
      exact ⟨hv, hpath, hr, h.symm⟩
    · rw [load_of_last hv hpath hr] at h
      simp at h
  · rintro ⟨hv, hp, hr, rfl⟩
    exact load_of_room hv hp hr

theorem hasRoom_iff (disk : Disk) :
    disk.HasRoom ↔ (Recovery.ofDisk disk.withDirectory).greatest.toNat + 2 < UInt64.size := by
  have hc := Recovery.covers_ofDisk disk.withDirectory
  constructor
  · intro h
    rcases hc.greatest with hzero | ⟨name, hm, layout, hp⟩
    · rw [hzero]
      decide
    · exact h ((mem_listing_withDirectory disk name).mp hm) hp
  · intro h name generation layout hs hp
    have hle := hc.le_greatest ((mem_listing_withDirectory disk name).mpr hs) hp
    have := UInt64.le_iff_toNat_le.mp hle
    omega

instance (disk : Disk) : Decidable disk.HasRoom := decidable_of_iff _ (hasRoom_iff disk).symm

theorem exists_load {settings : Settings} {disk : Disk} (hv : settings.validate = .ok ())
    (hp : disk.pathFault? = none) (hr : disk.HasRoom) : ∃ s, load settings disk = .ok s :=
  ⟨_, load_of_room hv hp ((hasRoom_iff disk).mp hr)⟩

theorem pathFault?_of_load {settings : Settings} {disk : Disk} {s : Store}
    (h : load settings disk = .ok s) : disk.pathFault? = none := (load_eq_ok.mp h).2.1

theorem opened_of_load {settings : Settings} {disk : Disk} {s : Store}
    (h : load settings disk = .ok s) : Opened settings disk s := by
  obtain ⟨-, -, hroom, rfl⟩ := load_eq_ok.mp h
  have hc := Recovery.covers_ofDisk disk.withDirectory
  have hmem := mem_listing_withDirectory disk
  refine ⟨rfl, hc.path, ?_, ?_, ?_, ⟨_, rfl, hroom, ?_, ?_⟩, rfl⟩
  · intro name
    rw [← find?_withDirectory disk]
    exact hc.find? name
  · intro generation t ht
    obtain ⟨hg, name, ho⟩ := hc.registered ht
    exact ⟨hg, name, openTable_withDirectory disk name ▸ ho⟩
  · intro name t ho
    have hfile : (disk.find? name).isSome := by
      obtain ⟨_, _, _, -, -, hf, -⟩ := Disk.openTable_eq_ok.mp ho
      rw [hf]
      rfl
    exact hc.opened ((hmem name).mpr hfile) ((openTable_withDirectory disk name).trans ho)
  · intro name generation layout hs hp
    exact hc.le_greatest ((hmem name).mpr hs) hp
  · exact hc.greatest.imp_right fun ⟨name, hm, layout, hp⟩ => ⟨name, layout, (hmem name).mp hm, hp⟩

theorem Opened.openTable {settings : Settings} {disk : Disk} {s : Store}
    (h : Opened settings disk s) (name : String) :
    s.disk.openTable name = disk.openTable name := Recovery.openTable_of_find? h.path (h.find? name)

end Store

end TableStore

import Mathlib.Data.List.Induction
import TableStore.Proofs.Store.Visibility

/-! What the order of a listing decides. Opening a store visits the entries of its directory as they
are listed and registers each table that opens under its generation, in the place of one that was
there before. So the table read under a generation is the one listed last; every table that opens is
read, and the order decides nothing, exactly when no two of them share a generation. -/

namespace TableStore

/-- Of values inserted one after another the last one under a generation stands. -/
theorem Generations.find?_foldl_insert {α : Type} (key : α → UInt64) (values : List α)
    (generation : UInt64) :
    (values.foldl (fun g value => g.insert (key value) value) Generations.empty).find? generation =
      (values.filter fun value => key value = generation).getLast? := by
  induction values using List.reverseRecOn with
  | nil => rfl
  | append_singleton values value ih =>
    rw [List.foldl_append, List.foldl_cons, List.foldl_nil, Generations.find?_insert, ih,
      List.filter_append]
    by_cases h : key value = generation <;> simp [h]

namespace Disk

/-- The tables that open on a disk, in the order of the listing. -/
def accepted (disk : Disk) : List Table :=
  disk.listing.filterMap fun e => (disk.openTable e.1).toOption

/-- The one listed last of the tables that open under a generation. -/
def lastOf? (disk : Disk) (generation : UInt64) : Option Table :=
  (disk.accepted.filter fun t => t.generation = generation).getLast?

/-- The second disk holds the entries of the first, listed in the same or another order. -/
structure Relists (disk disk' : Disk) : Prop where
  path : disk'.path = disk.path
  listing : disk'.listing.Perm disk.listing

variable {disk disk' : Disk} {t : Table}

theorem mem_accepted : t ∈ disk.accepted ↔ ∃ name, disk.openTable name = .ok t := by
  simp only [accepted, List.mem_filterMap, toOption_eq_some, Prod.exists, exists_and_right,
    mem_listing_iff]
  constructor
  · rintro ⟨name, -, ho⟩
    exact ⟨name, ho⟩
  · rintro ⟨name, ho⟩
    exact ⟨name, Option.isSome_iff_exists.mp (isSome_of_openTable ho), ho⟩

theorem accepted_withDirectory (disk : Disk) : disk.withDirectory.accepted = disk.accepted := by
  have hlisting : disk.withDirectory.listing = disk.listing := by
    unfold withDirectory listing
    cases disk.directory <;> rfl
  unfold accepted
  rw [hlisting]
  simp only [Store.openTable_withDirectory]

namespace Relists

theorem find? (h : disk.Relists disk') (name : String) : disk'.find? name = disk.find? name := by
  refine Option.ext fun entry => ?_
  rw [← mem_listing_iff, ← mem_listing_iff, h.listing.mem_iff]

theorem openTable (h : disk.Relists disk') (name : String) :
    disk'.openTable name = disk.openTable name := openTable_congr h.path (h.find? name)

theorem isDistinct (h : disk.Relists disk') (hd : disk.IsDistinct) : disk'.IsDistinct := by
  intro name name' t t' ho ho'
  exact hd ((h.openTable name).symm.trans ho) ((h.openTable name').symm.trans ho')

theorem hasRoom (h : disk.Relists disk') (hr : disk.HasRoom) : disk'.HasRoom :=
  fun hs hp => hr (h.find? _ ▸ hs) (pathOf_congr h.path _ ▸ hp)

end Relists

/-- Any table that opens can be listed last. -/
theorem exists_relists_lastOf? (h : t ∈ disk.accepted) :
    ∃ disk', disk.Relists disk' ∧ disk'.lastOf? t.generation = some t := by
  obtain ⟨name, ho⟩ := mem_accepted.mp h
  obtain ⟨entry, hfile⟩ := Option.isSome_iff_exists.mp (isSome_of_openTable ho)
  obtain ⟨d, hd, hfind⟩ := Option.bind_eq_some_iff.mp hfile
  have hperm : (d.entries.erase (name, entry) ++ [(name, entry)]).Perm d.entries :=
    (List.perm_append_singleton _ _).trans
      (List.perm_cons_erase (Directory.mem_entries_iff.mpr hfind)).symm
  let disk' : Disk := { disk with
    directory := some ⟨_, ((hperm.map Prod.fst).nodup_iff).mpr d.nodup⟩ }
  have hrelists : disk.Relists disk' := by
    refine ⟨rfl, ?_⟩
    unfold listing
    rw [hd]
    exact hperm
  have ho' : disk'.openTable name = .ok t := (hrelists.openTable name).trans ho
  refine ⟨disk', hrelists, ?_⟩
  have hlisting : disk'.listing = d.entries.erase (name, entry) ++ [(name, entry)] := rfl
  rw [lastOf?, accepted, hlisting, List.filterMap_append, List.filter_append]
  simp [ho', Except.toOption]

end Disk

/-! ### Visiting the entries -/

namespace Recovery

variable {disk : Disk} {names : List String} {r : Recovery}

theorem Covers.tables_visit (h : Covers disk names r) (name : String) :
    (r.visit name).tables = (disk.openTable name).toOption.elim r.tables
      fun t => r.tables.insert t.generation t := by
  unfold Recovery.visit
  rw [Disk.pathOf_congr h.path name]
  by_cases ht : TableName.isTemporary (disk.pathOf name) = true
  · rw [if_pos ht, Disk.openTable_of_parse? (TableName.parse?_of_isTemporary ht)]
    rfl
  · rw [if_neg ht]
    cases hp : TableName.parse? (disk.pathOf name) with
    | none =>
      rw [Disk.openTable_of_parse? hp]
      rfl
    | some found =>
      dsimp only
      rw [h.openTable]
      cases ho : disk.openTable name with
      | error fault => rfl
      | ok t =>
        obtain ⟨-, layout, hp'⟩ := Disk.of_openTable_eq_ok ho
        rw [hp, Option.some.injEq] at hp'
        rw [hp']
        rfl

/-- Each table that opens is registered when its turn in the listing comes. -/
theorem tables_ofDisk (disk : Disk) : (ofDisk disk).tables =
    disk.accepted.foldl (fun g t => g.insert t.generation t) Generations.empty := by
  have hfold : ∀ (entries : List (String × Entry)) (names : List String) (r : Recovery),
      Covers disk names r →
      (entries.foldl (fun r e => r.visit e.1) r).tables =
        (entries.filterMap fun e => (disk.openTable e.1).toOption).foldl
          (fun g t => g.insert t.generation t) r.tables := by
    intro entries
    induction entries with
    | nil => intro names r h; rfl
    | cons e entries ih =>
      intro names r h
      rw [List.foldl_cons, ih _ _ (h.visit e.1), h.tables_visit]
      cases ho : (disk.openTable e.1).toOption <;> simp [ho]
  exact hfold disk.listing [] ⟨disk, .empty, 0⟩
    ⟨rfl, fun _ => Or.inl rfl, by simp, by simp, by simp, Or.inl rfl⟩

end Recovery

namespace Store

variable {settings : Settings} {disk disk' : Disk} {s s' : Store}

/-- The table read under a generation is the one listed last. -/
theorem find?_tables_of_load (h : load settings disk = .ok s) (generation : UInt64) :
    s.tables.find? generation = disk.lastOf? generation := by
  obtain ⟨-, -, -, rfl⟩ := load_eq_ok.mp h
  show (Recovery.ofDisk disk.withDirectory).tables.find? generation = _
  rw [Recovery.tables_ofDisk, Generations.find?_foldl_insert, Disk.accepted_withDirectory,
    Disk.lastOf?]

/-- Where the generations begin does not depend on the order. -/
theorem memory_eq_of_relists (h : load settings disk = .ok s) (hr : disk.Relists disk')
    (h' : load settings disk' = .ok s') : s'.memory = s.memory := by
  obtain ⟨greatest, hmemory, -, hbound, hnamed⟩ := (opened_of_load h).memory
  obtain ⟨greatest', hmemory', -, hbound', hnamed'⟩ := (opened_of_load h').memory
  have hle : greatest ≤ greatest' := by
    rcases hnamed with rfl | ⟨name, layout, hfile, hp⟩
    · exact UInt64.zero_le
    · exact hbound' (hr.find? name ▸ hfile) (Disk.pathOf_congr hr.path name ▸ hp)
  have hge : greatest' ≤ greatest := by
    rcases hnamed' with rfl | ⟨name, layout, hfile, hp⟩
    · exact UInt64.zero_le
    · exact hbound (hr.find? name ▸ hfile) (Disk.pathOf_congr hr.path name ▸ hp)
  rw [hmemory, hmemory', UInt64.le_antisymm hge hle]

/-- When no two tables share a generation, the order of the listing decides nothing. -/
theorem tables_eq_of_relists (h : load settings disk = .ok s) (hd : disk.IsDistinct)
    (hr : disk.Relists disk') (h' : load settings disk' = .ok s') : s'.tables = s.tables := by
  refine Generations.ext_find? fun generation => Option.ext fun t => ?_
  rw [(opened_of_load h).find?_eq_some_iff hd,
    (opened_of_load h').find?_eq_some_iff (hr.isDistinct hd)]
  simp only [hr.openTable]

/-- Tables that are all found under their generations share none. -/
theorem isDistinct_of_find? (tables : Generations Table)
    (h : ∀ t ∈ disk.accepted, tables.find? t.generation = some t) : disk.IsDistinct := by
  intro name name' t t' ho ho' hg
  have ht := h t (Disk.mem_accepted.mpr ⟨name, ho⟩)
  rw [hg, h t' (Disk.mem_accepted.mpr ⟨name', ho'⟩), Option.some.injEq] at ht
  exact ht.symm

theorem isDistinct_of_tables_eq (h : load settings disk = .ok s)
    (hsame : ∀ disk' s', disk.Relists disk' → load settings disk' = .ok s' →
      s'.tables = s.tables) : disk.IsDistinct := by
  refine isDistinct_of_find? s.tables fun t ht => ?_
  obtain ⟨disk', hr, hlast⟩ := Disk.exists_relists_lastOf? ht
  obtain ⟨hv, hp, hroom, -⟩ := load_eq_ok.mp h
  obtain ⟨s', h'⟩ := exists_load hv ((pathFault?_congr hr.path).trans hp)
    (hr.hasRoom ((hasRoom_iff disk).mpr hroom))
  rw [← hsame disk' s' hr h', find?_tables_of_load h', hlast]

theorem validate_of_load (h : load settings disk = .ok s) : settings.validate = .ok () :=
  (load_eq_ok.mp h).1

theorem values_of_load_iff (h : load settings disk = .ok s) :
    (∀ t ∈ disk.accepted, t ∈ s.tables.values) ↔ disk.IsDistinct := by
  have hopened := opened_of_load h
  constructor
  · intro hall
    refine isDistinct_of_find? s.tables fun t ht => ?_
    obtain ⟨generation, hfound⟩ := Generations.mem_values_iff.mp (hall t ht)
    rwa [(hopened.registered hfound).1]
  · intro hd t ht
    exact Generations.mem_values_iff.mpr
      ⟨t.generation, (hopened.find?_eq_some_iff hd).mpr ⟨rfl, Disk.mem_accepted.mp ht⟩⟩

/-- Of the tables that open the one listed last under each generation is read. All of them are, and
whatever the order of the listing, exactly when no two share a generation. -/
theorem load_reads_last (h : load settings disk = .ok s) :
    (∀ generation, s.tables.find? generation = disk.lastOf? generation) ∧
    ((∀ t ∈ disk.accepted, t ∈ s.tables.values) ↔ disk.IsDistinct) ∧
    ((∀ disk' s', disk.Relists disk' → load settings disk' = .ok s' →
      s'.tables = s.tables) ↔ disk.IsDistinct) ∧
    (disk.IsDistinct → ∀ disk' s', disk.Relists disk' → load settings disk' = .ok s' →
      s'.ReadsAs s) :=
  ⟨find?_tables_of_load h, values_of_load_iff h,
    ⟨isDistinct_of_tables_eq h,
      fun hd _ _ hr h' => tables_eq_of_relists h hd hr h'⟩,
    fun hd _ _ hr h' =>
      readsAs_of_eq (memory_eq_of_relists h hr h') (tables_eq_of_relists h hd hr h')⟩

/-! ### Two names of one generation -/

/-- A table of one row: the key, its payload and the stamp 1. -/
def oneRow (key payload : UInt8) : Entry :=
  .file #[0, 0, 0, 1, key, 0, 0, 0, 0, 0, 0, 0, 1, 0, 0, 0, 1, payload,
    0, 0, 0, 0, 0, 0, 0, 0, 0, 0, 0, 0, 0, 0, 0, 1]

/-- The seventh table twice, under a short name and under the full one. -/
def seventhTwice : List (String × Entry) :=
  [("table_7.dat", oneRow 97 49), ("table_00000000000000000007.dat", oneRow 98 50)]

def twofold : Disk := { path := "data", directory := some ⟨seventhTwice, by decide⟩ }

def twofoldTurned : Disk :=
  { path := "data", directory := some ⟨seventhTwice.reverse, by decide⟩ }

theorem not_isDistinct_twofold : ¬ twofold.IsDistinct := by
  obtain ⟨t, ho, hgeneration, hpath⟩ : ∃ t, twofold.openTable "table_7.dat" = .ok t ∧
      t.generation = 7 ∧ t.path = "data/table_7.dat" := exists_eq_ok_of_any (by decide +kernel)
  obtain ⟨t', ho', hgeneration', hpath'⟩ : ∃ t,
      twofold.openTable "table_00000000000000000007.dat" = .ok t ∧
      t.generation = 7 ∧ t.path = "data/table_00000000000000000007.dat" :=
    exists_eq_ok_of_any (by decide +kernel)
  intro hd
  rw [← hd ho ho' (hgeneration.trans hgeneration'.symm), hpath] at hpath'
  exact absurd hpath' (by decide)

theorem twofold_reads_last : ∃ s, load {} twofold = .ok s ∧
    (s.tables.find? 7).map Table.path = some "data/table_00000000000000000007.dat" ∧
    ¬ ∀ t ∈ twofold.accepted, t ∈ s.tables.values := by
  have hvalid : Settings.validate {} = .ok () := rfl
  have hpath : twofold.pathFault? = none := by decide
  obtain ⟨s, h⟩ := exists_load hvalid hpath (by decide)
  obtain ⟨hlast, hall, -⟩ := load_reads_last h
  refine ⟨s, h, ?_, fun hread => not_isDistinct_twofold (hall.mp hread)⟩
  rw [hlast]
  decide +kernel

/-- A table that opens on both disks is read on one of them only. -/
theorem reads_depend_on_listing : ∃ s s', twofold.Relists twofoldTurned ∧
    load {} twofold = .ok s ∧ load {} twofoldTurned = .ok s' ∧
    (∃ t, twofold.openTable "table_7.dat" = .ok t ∧
      t.get? [97] = .ok (some ⟨[97], .present 1 [49]⟩)) ∧
    s.version [97] = .ok .absent ∧ s'.version [97] = .ok (.present 1 [49]) := by
  obtain ⟨s, h, hs⟩ : ∃ s, load {} twofold = .ok s ∧
      (s.version [97]).toOption = some .absent :=
    exists_eq_ok_of_any (by decide +kernel)
  obtain ⟨s', h', hs'⟩ : ∃ s, load {} twofoldTurned = .ok s ∧
      (s.version [97]).toOption = some (.present 1 [49]) :=
    exists_eq_ok_of_any (by decide +kernel)
  obtain ⟨t, ho, ht⟩ : ∃ t, twofold.openTable "table_7.dat" = .ok t ∧
      (t.get? [97]).toOption = some (some ⟨[97], .present 1 [49]⟩) :=
    exists_eq_ok_of_any (by decide +kernel)
  rw [toOption_eq_some] at hs hs' ht
  exact ⟨s, s', ⟨rfl, List.reverse_perm _⟩, h, h', ⟨t, ho, ht⟩, hs, hs'⟩

end Store

end TableStore

import TableStore.Proofs.Store.Reading
import TableStore.Proofs.Store.Recovery
import TableStore.Proofs.Table.Damage

/-! Reading a store over damaged tables. A range passes the fault of a damaged table on and goes on
with the other sources, while looking a key up still reaches the rows behind the damage. So a pair
that a range yields is of the newest version only if no table hides a newer one: where one does, the
fault of that table has come before the pair, and the range shows an older version, even of a key
that has been deleted. Besides, the two reads choose differently between versions of one age in
memory and on disk. -/

namespace TableStore

namespace RangeCursor

/-- A pair that is yielded is the one of a cell, and the faults in front of the cell have been
yielded in front of the pair. -/
theorem exists_cell_of_answers {limit : Option Bytes} {items : List Item}
    {before after : List (Except Fault (Bytes × Bytes))} {key data : Bytes}
    (h : answers limit items = before ++ .ok (key, data) :: after) :
    ∃ front version back, items = front ++ .ok ⟨key, version⟩ :: back ∧
      version.data? = some data ∧ ∀ fault, .error fault ∈ front → .error fault ∈ before := by
  fun_induction answers limit items generalizing before with
  | case1 => simp at h
  | case2 own rest ih =>
    cases before with
    | nil => simp at h
    | cons item before =>
      rw [List.cons_append, List.cons.injEq] at h
      obtain ⟨rfl, h⟩ := h
      obtain ⟨front, version, back, hi, hd, hf⟩ := ih h
      refine ⟨.error own :: front, version, back, by rw [hi]; rfl, hd, fun fault hm => ?_⟩
      rcases List.mem_cons.mp hm with he | hm
      · rw [Except.error.inj he]
        exact List.mem_cons_self
      · exact List.mem_cons_of_mem _ (hf fault hm)
  | case3 => simp at h
  | case4 cell rest hl stamp own hv ih =>
    cases before with
    | nil =>
      simp only [List.nil_append, List.cons.injEq, Except.ok.injEq, Prod.mk.injEq] at h
      obtain ⟨⟨rfl, rfl⟩, -⟩ := h
      exact ⟨[], cell.version, rest, rfl, by rw [hv]; rfl, by simp⟩
    | cons item before =>
      rw [List.cons_append, List.cons.injEq] at h
      obtain ⟨rfl, h⟩ := h
      obtain ⟨front, version, back, hi, hd, hf⟩ := ih h
      refine ⟨.ok cell :: front, version, back, by rw [hi]; rfl, hd, fun fault hm => ?_⟩
      exact List.mem_cons_of_mem _ (hf fault (List.mem_of_ne_of_mem (by simp) hm))
  | case5 cell rest hl hv ih =>
    obtain ⟨front, version, back, hi, hd, hf⟩ := ih h
    refine ⟨.ok cell :: front, version, back, by rw [hi]; rfl, hd, fun fault hm => ?_⟩
    exact hf fault (List.mem_of_ne_of_mem (by simp) hm)

end RangeCursor

namespace Store

/-- The tables in memory are sound, and the keys of all registered tables can be read. -/
structure IsLegible (s : Store) : Prop where
  memory : s.memory.IsSound
  tables : ∀ t ∈ s.tables.values, t.IsLegible

theorem IsSound.isLegible {s : Store} (h : s.IsSound) : s.IsLegible :=
  ⟨h.memory, fun t ht => (h.tables t ht).isLegible⟩

/-- A registered table gives a version for a key. -/
def OnDisk (s : Store) (key : Bytes) (v : Version) : Prop :=
  ∃ t ∈ s.tables.values, t.get? key = .ok (some ⟨key, v⟩)

/-- A registered table gives a version for a key and hides it from a scan, whose fault is among
the answers. -/
def IsHidden (s : Store) (start key : Bytes) (v : Version)
    (answers : List (Except Fault (Bytes × Bytes))) : Prop :=
  ∃ t ∈ s.tables.values, t.get? key = .ok (some ⟨key, v⟩) ∧
    ∃ fault, .error fault ∈ answers ∧ t.Hides start key fault

/-- The versions of a key that scans of the tables reach in front of rows that cannot be read. -/
def shownOnDisk (s : Store) (start key : Bytes) : List Version :=
  s.tables.values.filterMap fun t => lookup key (readable (t.itemsFrom start))

/-- The versions that looking a key up finds in the tables. -/
def heldOnDisk (s : Store) (key : Bytes) : List Version :=
  s.tables.values.filterMap (·.versionOf? key)

/-- The version of a key that looking it up finds, where all tables answer. -/
def found (s : Store) (key : Bytes) : Version :=
  Version.newest (s.memory.get key :: s.heldOnDisk key)

/-- The version of a key that a range shows: the newest of those that its scans reach, those on
disk first. -/
def shown (s : Store) (start key : Bytes) : Version :=
  Version.newest (s.shownOnDisk start key ++ s.memory.versions key)

/-- A key whose version is found has been looked up in every table. -/
theorem eq_found_of_version {s : Store} {key : Bytes} {v : Version} (hv : s.version key = .ok v) :
    v = s.found key ∧ ∀ t ∈ s.tables.values, ∃ held, t.get? key = .ok held := by
  obtain ⟨cells, hc, he⟩ := bind_eq_ok.mp hv
  rw [pure_eq_ok, Except.ok.injEq] at he
  refine ⟨?_, fun t ht => ?_⟩
  · rw [← he, found, heldOnDisk, filterMap_of_mapM_eq_ok hc]
    rfl
  · have hm : t.get? key ∈ cells.map Except.ok := mapM_eq_ok.mp hc ▸ List.mem_map_of_mem ht
    obtain ⟨held, -, hheld⟩ := List.mem_map.mp hm
    exact ⟨held, hheld.symm⟩

theorem IsLegible.shownOnDisk_eq_nil {s : Store} (h : s.IsLegible) {start key : Bytes}
    (hk : key < start) : s.shownOnDisk start key = [] := by
  refine List.filterMap_eq_nil_iff.mpr fun t ht => lookup_eq_none_iff.mpr fun cell hc he => ?_
  exact ((h.tables t ht).scan start).2.not_lt_start cell hc (he ▸ hk)

/-- A range over legible tables opens. A pair that it yields is of the version shown, and a table
that ends in a fault has yielded it before or is read past the pair. -/
theorem IsLegible.exists_range {s : Store} (h : s.IsLegible) (start : Bytes)
    (limit : Option Bytes) : ∃ cursor, s.range start limit = .ok cursor ∧
      ∀ {before key data after}, cursor.toList s.memory = before ++ .ok (key, data) :: after →
        ¬ key < start ∧ (s.shown start key).data? = some data ∧
        ∀ t ∈ s.tables.values, ∀ fault, firstFault? (t.itemsFrom start) = some fault →
          .error fault ∈ before ∨ ∃ cell ∈ readable (t.itemsFrom start), key < cell.key := by
  obtain ⟨inMemory, hmemory, hmasc, hmlook⟩ := h.memory.toList_cursor start
  have hscan : s.tables.values.mapM (·.scan start) =
      .ok (s.tables.values.map (·.itemsFrom start)) := by
    rw [mapM_eq_ok, List.map_map]
    exact List.map_congr_left fun t ht => ((h.tables t ht).scan start).1
  obtain ⟨cursor, hrange, hlist⟩ := Store.exists_range hscan limit
  refine ⟨cursor, hrange, fun {before key data after} hpair => ?_⟩
  rw [hlist, hmemory] at hpair
  obtain ⟨front, version, back, hmerge, hdata, hfaults⟩ :=
    RangeCursor.exists_cell_of_answers hpair
  have hasc : ∀ items ∈ s.tables.values.map (·.itemsFrom start) ++ [inMemory.map .ok],
      Ascending (readable items) := by
    intro items hi
    rw [List.mem_append, List.mem_singleton] at hi
    rcases hi with hi | rfl
    · obtain ⟨t, ht, rfl⟩ := List.mem_map.mp hi
      exact ((h.tables t ht).scan start).2.ascending
    · exact (readable_map_ok inMemory).symm ▸ hmasc
  obtain ⟨hnewest, hstop⟩ := mergeLists_faulted hasc hmerge
  rw [List.filterMap_append, List.filterMap_map, List.filterMap_cons, readable_map_ok,
    hmlook] at hnewest
  change Version.newest? (s.shownOnDisk start key ++ _) = some version at hnewest
  have hge : ¬ key < start := by
    intro hlt
    simp [h.shownOnDisk_eq_nil hlt, hlt, Version.newest?] at hnewest
  refine ⟨hge, ?_, fun t ht fault hf => ?_⟩
  · rw [if_neg hge] at hnewest
    rw [shown, ← Version.newest_append_newest?, ← Version.exists_newest?_data]
    refine ⟨version, ?_, hdata⟩
    rw [← hnewest]
    cases Version.newest? (s.memory.versions key) <;> rfl
  · have hm : t.itemsFrom start ∈ s.tables.values.map (·.itemsFrom start) ++ [inMemory.map .ok] :=
      List.mem_append_left _ (List.mem_map_of_mem ht)
    exact (hstop _ hm fault hf).imp (hfaults fault) id

/-! ### What is found and what is shown -/

/-- Two versions of a key are of one age, the first on disk and the second in memory. -/
def IsTied (s : Store) (key : Bytes) (onDisk inMemory : Version) : Prop :=
  s.OnDisk key onDisk ∧ s.memory.get key = inMemory ∧ onDisk.stamp? = inMemory.stamp?

/-- Each table shows what it holds for a key, or its fault is among the answers. -/
def AccountsFor (s : Store) (start key : Bytes)
    (answers : List (Except Fault (Bytes × Bytes))) : Prop :=
  ∀ t ∈ s.tables.values, lookup key (readable (t.itemsFrom start)) = t.versionOf? key ∨
    lookup key (readable (t.itemsFrom start)) = none ∧
      ∃ fault, .error fault ∈ answers ∧ t.Hides start key fault

variable {s : Store} {start key : Bytes} {answers : List (Except Fault (Bytes × Bytes))}

/-- Where a table that ends in a fault has yielded it or is read past a key, all tables account for
the key. -/
theorem IsLegible.accountsFor (h : s.IsLegible) (hge : ¬ key < start)
    (hget : ∀ t ∈ s.tables.values, ∃ held, t.get? key = .ok held)
    (hstop : ∀ t ∈ s.tables.values, ∀ fault, firstFault? (t.itemsFrom start) = some fault →
      .error fault ∈ answers ∨ ∃ cell ∈ readable (t.itemsFrom start), key < cell.key) :
    s.AccountsFor start key answers := by
  intro t ht
  obtain ⟨held, hheld⟩ := hget t ht
  refine (((h.tables t ht).scan start).2.shown_or_hidden key held hge hheld).imp id ?_
  rintro ⟨fault, hfault, hhides, hbelow⟩
  refine ⟨lookup_eq_none_iff.mpr fun cell hc he => ?_, fault, ?_, hhides⟩
  · exact List.lt_irrefl _ (he ▸ hbelow cell hc)
  · refine (hstop t ht fault hfault).resolve_right ?_
    rintro ⟨cell, hc, hlt⟩
    exact List.lt_irrefl _ (List.lt_trans hlt (hbelow cell hc))

theorem IsLegible.onDisk_of_mem (h : s.IsLegible) {v : Version} (hv : v ∈ s.heldOnDisk key) :
    s.OnDisk key v := by
  obtain ⟨t, ht, hv⟩ := List.mem_filterMap.mp hv
  exact ⟨t, ht, (h.tables t ht).get?_of_versionOf? hv⟩

theorem IsLegible.shown_eq (h : s.IsLegible) (start key : Bytes) : s.shown start key =
    Version.later (Version.newest (s.shownOnDisk start key)) (s.memory.get key) := by
  rw [shown, Version.newest_append, ← Memory.get_eq h.memory.buffers]

/-- What is shown is not newer than what is found. -/
theorem AccountsFor.not_found_older (ha : s.AccountsFor start key answers) (h : s.IsLegible) :
    ¬ (s.found key).Older (s.shown start key) := by
  rw [found, Version.newest_cons, h.shown_eq]
  rcases Version.later_eq_or (Version.newest (s.shownOnDisk start key)) (s.memory.get key) with
    he | he
  · rw [he]
    exact Version.not_older_trans (Version.not_later_older_right _ _)
      (Version.not_newest_older_shown ha)
  · rw [he]
    exact Version.not_later_older_left _ _

/-- What is shown with a stamp is held in memory or on disk. -/
theorem AccountsFor.shown_held (ha : s.AccountsFor start key answers) (h : s.IsLegible)
    {stamp : Stamp} (hs : (s.shown start key).stamp? = some stamp) :
    s.memory.get key = s.shown start key ∨ s.OnDisk key (s.shown start key) := by
  rw [h.shown_eq] at hs ⊢
  rcases Version.later_eq_or (Version.newest (s.shownOnDisk start key)) (s.memory.get key) with
    he | he
  · rw [he] at hs ⊢
    have hm := Version.newest_mem_of_stamp? hs
    exact Or.inr (h.onDisk_of_mem (Version.mem_held_of_mem_shown ha hm))
  · exact Or.inl he.symm

/-- What is shown with a stamp is what is found, unless that is hidden or of the same age. -/
theorem AccountsFor.found_cases (ha : s.AccountsFor start key answers) (h : s.IsLegible)
    {stamp : Stamp} (hs : (s.shown start key).stamp? = some stamp) :
    s.found key = s.shown start key ∨ s.IsHidden start key (s.found key) answers ∨
      s.IsTied key (s.found key) (s.shown start key) := by
  rw [h.shown_eq] at hs
  rw [found, Version.newest_cons, h.shown_eq]
  rcases Version.newest_filterMap_cases ha with hsame | ⟨t, ht, hhidden, hheld⟩
  · have hsame : Version.newest (s.shownOnDisk start key) =
        Version.newest (s.heldOnDisk key) := hsame.symm
    rw [hsame] at hs ⊢
    rcases Version.later_comm_or (s.memory.get key) (Version.newest (s.heldOnDisk key)) with
      he | ⟨hdisk, hmemory, hage⟩
    · exact Or.inl he
    · rw [hmemory, ← hage] at hs
      rw [hdisk, hmemory]
      exact Or.inr (Or.inr ⟨h.onDisk_of_mem (Version.newest_mem_of_stamp? hs), rfl, hage⟩)
  · by_cases ho : (Version.newest (s.heldOnDisk key)).Older (s.memory.get key)
    · have hboth := Version.older_of_not_older (Version.not_newest_older_shown ha) ho
      rw [Version.later_of_newer ho]
      exact Or.inl (Version.later_of_not_newer hboth.asymm).symm
    · rw [Version.later_of_not_newer ho]
      exact Or.inr (Or.inl ⟨t, ht, (h.tables t ht).get?_of_versionOf? hheld, hhidden⟩)

/-- Every pair that a range over legible tables yields is of a version that the store holds. When
the key is found by itself, that version is not newer, and it is the one found unless a table hides
the one found, and the fault of this table has come before the pair, or the two are of one age. -/
theorem IsLegible.range_shows_found (h : s.IsLegible) (start : Bytes) (limit : Option Bytes) :
    ∃ cursor, s.range start limit = .ok cursor ∧
      ∀ {before key data after v}, cursor.toList s.memory = before ++ .ok (key, data) :: after →
        s.version key = .ok v → ∃ shown, (s.memory.get key = shown ∨ s.OnDisk key shown) ∧
          shown.data? = some data ∧ ¬ v.Older shown ∧
          (v = shown ∨ s.IsHidden start key v before ∨ s.IsTied key v shown) := by
  obtain ⟨cursor, hrange, hpairs⟩ := h.exists_range start limit
  refine ⟨cursor, hrange, fun {before key data after v} hpair hversion => ?_⟩
  obtain ⟨hge, hdata, hstop⟩ := hpairs hpair
  obtain ⟨rfl, hget⟩ := eq_found_of_version hversion
  have ha := h.accountsFor hge hget hstop
  obtain ⟨stamp, hs⟩ := Version.exists_stamp?_of_data? hdata
  exact ⟨s.shown start key, ha.shown_held h hs, hdata, ha.not_found_older h, ha.found_cases h hs⟩

/-! ### A damaged row in front of a tombstone -/

/-- A table with one pair. -/
def pairImage : Array UInt8 :=
  #[0, 0, 0, 1, 98, 0, 0, 0, 0, 0, 0, 0, 1, 0, 0, 0, 1, 120,
    0, 0, 0, 0, 0, 0, 0, 0,
    0, 0, 0, 0, 0, 0, 0, 1]

/-- A table whose first row has the least stamp, which no record may have, and whose second row is a
tombstone of the pair's key. -/
def damagedImage : Array UInt8 :=
  #[0, 0, 0, 1, 97, 128, 0, 0, 0, 0, 0, 0, 0,
    0, 0, 0, 1, 98, 255, 255, 255, 255, 255, 255, 255, 251,
    0, 0, 0, 0, 0, 0, 0, 0,
    0, 0, 0, 0, 0, 0, 0, 13,
    0, 0, 0, 0, 0, 0, 0, 2]

/-- The pair, and in the next generation the damaged table that deletes it. -/
def damaged : Disk where
  path := "data"
  directory := some ⟨[("table_00000000000000000001.dat", .file pairImage),
    ("table_00000000000000000002.dat", .file damagedImage)], by decide⟩

theorem exists_load_damaged : ∃ s, load { layout := .plain, filterBits := 64 } damaged = .ok s ∧
    s.IsLegible ∧ s.memory.get [98] = .absent ∧ s.version [98] = .ok (.tombstone 5) ∧
    ∃ cursor, s.range [] none = .ok cursor ∧
      cursor.toList s.memory = [.error (.damage .stampRange), .ok ([98], [120])] := by
  have hvalid : Settings.validate { layout := .plain, filterBits := 64 } = .ok () := rfl
  have hpath : damaged.pathFault? = none := by decide
  obtain ⟨s, hl⟩ := exists_load hvalid hpath (by decide)
  obtain ⟨hget, hversion, hrange, hkeys⟩ : s.memory.get [98] = .absent ∧
      (s.version [98]).toOption = some (.tombstone 5) ∧
      (s.range [] none).toOption.map (RangeCursor.toList s.memory) =
        some [.error (.damage .stampRange), .ok ([98], [120])] ∧
      ∀ t ∈ s.tables.values, t.filter = none ∧
        ∃ keys ∈ t.keys.toOption, keys.Pairwise (· < ·) := by
    cases hl
    exact ⟨by decide +kernel, by decide +kernel, by decide +kernel, by decide +kernel⟩
  obtain ⟨greatest, hmemory, -⟩ := (opened_of_load hl).memory
  obtain ⟨cursor, hcursor, hlist⟩ := Option.map_eq_some_iff.mp hrange
  refine ⟨s, hl, ⟨hmemory ▸ Memory.isSound_empty _ _ _ _, fun t ht => ?_⟩, hget,
    toOption_eq_some.mp hversion, cursor, toOption_eq_some.mp hcursor, hlist⟩
  obtain ⟨hfilter, keys, hk, ha⟩ := hkeys t ht
  refine ⟨keys, Table.hasKeys_iff.mpr ⟨toOption_eq_some.mp hk, ha, fun key _ => ?_⟩⟩
  rw [Table.mayContain, hfilter]
  rfl

/-- The range yields the deleted pair behind a fault, and the tombstone is hidden behind that. -/
theorem range_shows_damaged : ∃ s cursor,
    load { layout := .plain, filterBits := 64 } damaged = .ok s ∧ s.IsLegible ∧
    s.range [] none = .ok cursor ∧
    cursor.toList s.memory = [.error (.damage .stampRange), .ok ([98], [120])] ∧
    s.IsHidden [] [98] (.tombstone 5) [.error (.damage .stampRange)] := by
  obtain ⟨s, hl, hs, hget, hversion, cursor, hrange, hlist⟩ := exists_load_damaged
  obtain ⟨_, hrange', hpairs⟩ := hs.range_shows_found [] none
  obtain rfl := Except.ok.inj (hrange.symm.trans hrange')
  have hpair : cursor.toList s.memory =
      [.error (.damage .stampRange)] ++ .ok ([98], [120]) :: [] := hlist
  obtain ⟨shown, -, hdata, -, rfl | hhidden | ⟨-, hmemory, -⟩⟩ := hpairs hpair hversion
  · simp [Version.data?] at hdata
  · exact ⟨s, cursor, hl, hs, hrange, hlist, hhidden⟩
  · simp [← hmemory, hget, Version.data?] at hdata

/-- A range yields the pair of a key that is deleted. -/
theorem deleted_pair_in_range : ∃ s cursor,
    load { layout := .plain, filterBits := 64 } damaged = .ok s ∧ s.IsLegible ∧
    s.range [] none = .ok cursor ∧ .ok ([98], [120]) ∈ cursor.toList s.memory ∧
    s.version [98] = .ok (.tombstone 5) := by
  obtain ⟨s, hl, hs, -, hversion, cursor, hrange, hlist⟩ := exists_load_damaged
  exact ⟨s, cursor, hl, hs, hrange, by simp [hlist], hversion⟩

end Store

end TableStore

import TableStore.Proofs.Disk.Published
import TableStore.Proofs.Table.Filters
import TableStore.Proofs.Table.Storable

/-! Tables that carry the filter of their own keys. A table is exact when its cells can be read and
its filter, if its layout has one, is what inserting the keys of these cells into an empty filter of
its size gives. What a draft publishes is exact when its filter was filled with the keys of its
cells, under whatever path it is read; so are the tables of a disk on which nothing but such drafts
was published, and building a table keeps them so. -/

namespace TableStore

/-- A table that can be read and carries the filter of its own keys. -/
structure Table.IsExact (t : Table) : Prop where
  sound : t.IsSound
  carries : t.layout = .filtered ↔ t.filter.isSome
  filter : ∀ f ∈ t.filter, f = (Filter.empty f.bits).insertAll (t.cells.map Cell.key)

namespace Draft

/-- Taking cells inserts their keys. -/
theorem filter_addAll {d d' : Draft} {cells : List Cell}
    (h : d.addAll (cells.map .ok) = .ok d') :
    d'.filter = d.filter.map (·.insertAll (cells.map Cell.key)) := by
  induction cells generalizing d with
  | nil =>
    rw [List.map_nil, addAll, Except.ok.injEq] at h
    rw [← h]
    cases d.filter <;> rfl
  | cons cell cells ih =>
    simp only [List.map_cons, addAll, ok_bind, bind_eq_ok] at h
    obtain ⟨next, hadd, h⟩ := h
    obtain ⟨-, record, -, rfl⟩ := add_eq_ok hadd
    rw [ih h, Option.map_map]
    rfl

/-- An empty draft filled with these cells, and with their keys in its filter if it has one. -/
structure IsFilled (d : Draft) (generation : UInt64) (layout : Layout) (filterBits : Nat)
    (cells : List Cell) : Prop where
  holds : d.Holds cells
  form : (empty generation layout filterBits).SameForm d
  filter : d.filter = filterOf layout filterBits cells

theorem isFilled_of_addAll {d : Draft} {generation : UInt64} {layout : Layout} {filterBits : Nat}
    {items : List (Except Fault Cell)}
    (h : (empty generation layout filterBits).addAll items = .ok d) :
    ∃ cells, d.IsFilled generation layout filterBits cells := by
  have hempty : (empty generation layout filterBits).Holds [] := holds_nil rfl rfl
  obtain ⟨cells, rfl, hholds, hform⟩ := hempty.addAll h
  refine ⟨cells, hholds, hform, ?_⟩
  rw [filter_addAll h]
  cases layout <;> rfl

variable {d : Draft} {generation : UInt64} {layout : Layout} {filterBits : Nat} {cells : List Cell}

theorem IsFilled.fits (h : d.IsFilled generation layout filterBits cells)
    (hfits : FilterFits layout filterBits) (hle : d.image.size ≤ Directory.maxFileSize) :
    d.Fits := ⟨plain_iff_of_sameForm h.form, words_lt_of_sameForm h.form hfits, hle⟩

/-- Such a draft is read back as an exact table. -/
theorem IsFilled.isExact (h : d.IsFilled generation layout filterBits cells)
    (hfits : FilterFits layout filterBits) (hle : d.image.size ≤ Directory.maxFileSize)
    (path : String) : (d.table path).IsExact := by
  have htable := h.holds.table (h.fits hfits hle) path
  refine ⟨htable.isSound, ?_, fun f hf => ?_⟩
  · show d.layout = .filtered ↔ d.filter.isSome
    rw [h.filter, h.form.layout]
    cases layout <;> simp [filterOf, empty]
  · change d.filter = some f at hf
    have hsize := (h.fits hfits hle).words_lt f hf
    rw [h.filter] at hf
    cases layout with
    | plain => simp [filterOf] at hf
    | filtered =>
      have hkeys := Option.some.inj hf
      have hempty : Filter.empty f.bits = Filter.empty filterBits := by
        apply Filter.empty_congr
        rw [Filter.empty_bits hsize, ← hkeys, Filter.size_insertAll]
      rw [htable.cells_eq, hempty, hkeys]

end Draft

/-! ### Disks -/

/-- Whatever path the directory has, its files are read as exact tables. -/
def Disk.IsExact (disk : Disk) : Prop :=
  ∀ name image, disk.find? name = some (.file image) → ∀ path generation layout t,
    TableName.parse? (Text.Path.join path name) = some (generation, layout) →
    Table.parse (Text.Path.join path name) generation layout image = .ok t → t.IsExact

namespace Disk

variable {disk disk' : Disk}

theorem IsExact.openTable (h : disk.IsExact) {name : String} {t : Table}
    (ho : disk.openTable name = .ok t) : t.IsExact := by
  obtain ⟨generation, layout, image, hp, -, hf, ht⟩ := openTable_eq_ok.mp ho
  exact h name image hf disk.path generation layout t hp ht

/-- Files that have gone do no harm. -/
theorem IsExact.of_find? (h : disk.IsExact)
    (hf : ∀ name, disk'.find? name = disk.find? name ∨ disk'.find? name = none) :
    disk'.IsExact := by
  intro name image hi
  rcases hf name with he | he
  · exact h name image (he ▸ hi)
  · simp [he] at hi

theorem IsExact.of_directory_eq (h : disk.IsExact) (he : disk'.directory = disk.directory) :
    disk'.IsExact :=
  h.of_find? fun name => Or.inl (by rw [find?, he, find?])

/-- Nor does anything under a temporary name. -/
theorem IsExact.litter (h : disk.IsExact) {generation : UInt64}
    (hs : disk.SameOutside [TableName.temporary generation] disk') : disk'.IsExact := by
  intro name image hi path g layout t hp
  by_cases hn : name = TableName.temporary generation
  · rw [hn, TableName.parse?_of_isTemporary
      (TableName.isTemporary_join_temporary path generation)] at hp
    simp at hp
  · rw [hs.find? name (by simpa using hn)] at hi
    exact h name image hi path g layout t hp

theorem IsExact.published (h : disk.IsExact) {d : Draft} {generation : UInt64} {layout : Layout}
    {filterBits : Nat} {cells : List Cell} (hd : d.IsFilled generation layout filterBits cells)
    (hfits : Draft.FilterFits layout filterBits) (hp : d.Published disk disk') :
    disk'.IsExact := by
  intro name image hi path g l t hname ht
  by_cases hf : name = d.fileName
  · rw [hf, hp.file, Option.some.injEq, Entry.file.injEq] at hi
    rw [hf, Draft.fileName, TableName.parse?_join_file, Option.some.injEq,
      Prod.mk.injEq] at hname
    have hback := hd.holds.parse_image (hd.fits hfits hp.image_le) (Text.Path.join path d.fileName)
    rw [hf, ← hi, ← hname.1, ← hname.2, hback, Except.ok.injEq] at ht
    exact ht ▸ hd.isExact hfits hp.image_le _
  · by_cases hn : name = d.temporaryName
    · rw [hn, hp.temporary] at hi
      simp at hi
    · rw [hp.sameOutside.find? name (by simp [hn, hf])] at hi
      exact h name image hi path g l t hname ht

/-- Publishing a draft that was filled with the keys of its cells keeps all tables exact. -/
theorem IsExact.publish (h : disk.IsExact) (generation : UInt64) {layout : Layout}
    {filterBits : Nat} {fill : Draft → Except Fault Draft}
    (hfits : Draft.FilterFits layout filterBits)
    (hfill : ∀ d, fill (Draft.empty generation layout filterBits) = .ok d →
      ∃ cells, d.IsFilled generation layout filterBits cells) :
    (Draft.publish disk generation layout filterBits fill).2.IsExact := by
  have hgeneration : ∀ d, fill (Draft.empty generation layout filterBits) = .ok d →
      d.generation = generation := fun d hd => (hfill d hd).elim fun _ hc => hc.form.generation
  rcases Draft.publish_cases disk generation layout filterBits hgeneration with
    ⟨fault, -, hs⟩ | ⟨d, summary, hd, -, hp⟩
  · exact h.litter hs
  · obtain ⟨cells, hc⟩ := hfill d hd
    exact h.published hc hfits hp

/-- So building a table of whatever cells does. -/
theorem IsExact.build (h : disk.IsExact) (generation : UInt64) {layout : Layout}
    {filterBits : Nat} (hfits : Draft.FilterFits layout filterBits)
    (items : List (Except Fault Cell)) :
    (Draft.build disk generation layout filterBits items).2.IsExact :=
  h.publish generation hfits fun _ hd => Draft.isFilled_of_addAll hd

/-- What building tables, one after another, makes of an empty directory. -/
inductive IsBuilt : Disk → Prop
  | empty (path : String) : IsBuilt { path, directory := some .empty }
  | build {disk : Disk} (generation : UInt64) {layout : Layout} {filterBits : Nat}
    (items : List (Except Fault Cell)) : IsBuilt disk → Draft.FilterFits layout filterBits →
    IsBuilt (Draft.build disk generation layout filterBits items).2

theorem IsBuilt.isExact (h : disk.IsBuilt) : disk.IsExact := by
  induction h with
  | empty path => intro name image hi; simp [find?, Directory.find?, Directory.empty] at hi
  | build generation items _ hfits ih => exact ih.build generation hfits items

end Disk

end TableStore

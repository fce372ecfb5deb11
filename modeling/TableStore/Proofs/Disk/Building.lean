import TableStore.Proofs.Disk.Truncated
import TableStore.Proofs.Table.Storable

/-! Building a table and reading it back. When nothing on the disk stands in its way, a table of
ascending storable cells is published, and its image, opened from the file or read under any other
path, gives back what the table was built of: the generation, the layout, the filter with all its
words, and the cells in order. The number of filter words is told in four bytes, so a filter of
2^32 words or more, 32 GiB of them, is published but not read back as it was. -/

namespace TableStore

/-! ### Operations that succeed -/

namespace Directory

variable {d : Directory} {name target : String} {bytes : Array UInt8}

theorem create_eq_ok (h : d.find? name ≠ some .folder) :
    create name d = .ok (d.put name (.file #[])) := by
  unfold create
  split
  · contradiction
  · rfl

theorem write_eq_ok {old : Array UInt8} (h : d.find? name = some (.file old))
    (hs : bytes.size ≤ maxFileSize) : write name bytes d = .ok (d.put name (.file bytes)) := by
  unfold write
  rw [h]
  dsimp only
  rw [if_neg (Nat.not_lt.mpr hs)]

theorem rename_eq_ok (h : d.find? name = some (.file bytes))
    (ht : d.find? target ≠ some .folder) :
    rename name target d = .ok ((d.erase name).put target (.file bytes)) := by
  unfold rename
  rw [h]
  cases hentry : d.find? target with
  | none => rfl
  | some entry =>
    cases entry with
    | file old => rfl
    | folder => exact absurd hentry ht

end Directory

namespace Disk

variable {disk : Disk}

/-- An operation that nothing refuses is done. -/
theorem perform_eq_ok {names : List String} {operation : Directory → Except DiskFault Directory}
    {d d' : Directory} (hr : disk.refusals[0]? ≠ some true)
    (hn : ∀ name ∈ names, disk.reaches name = true) (hd : disk.directory = some d)
    (ho : operation d = .ok d') :
    disk.perform names operation =
      (none, { disk with directory := some d', refusals := disk.refusals.tail }) := by
  unfold perform
  rw [← List.head?_eq_getElem?] at hr
  have hall : names.all disk.reaches = true := List.all_eq_true.mpr hn
  simp only [hr, if_false, hall, not_true_eq_false, hd, ho]

/-- A table of this generation and layout can be published: the directory is there, none of the
three file operations is refused, and both of the table's names can be reached and are no folders'
names. -/
structure Admits (disk : Disk) (generation : UInt64) (layout : Layout) : Prop where
  directory : disk.directory.isSome
  refusals : ∀ i < 3, disk.refusals[i]? ≠ some true
  names : ∀ name ∈ [TableName.temporary generation, TableName.file generation layout],
    disk.reaches name = true ∧ disk.find? name ≠ some .folder

end Disk

/-! ### Publishing -/

namespace Draft

/-- A draft whose temporary file is there is completed. -/
theorem finish_eq_ok {d : Draft} {disk : Disk} {entries : Directory} {old : Array UInt8}
    (hd : disk.directory = some entries) (hr : ∀ i < 2, disk.refusals[i]? ≠ some true)
    (hn : ∀ name ∈ [d.temporaryName, d.fileName], disk.reaches name = true)
    (ht : entries.find? d.temporaryName = some (.file old))
    (hf : entries.find? d.fileName ≠ some .folder)
    (hsize : d.image.size ≤ Directory.maxFileSize) :
    ∃ disk', d.finish disk = (.ok (d.summary disk'), disk') := by
  have hwrite : disk.write d.temporaryName d.image = _ :=
    Disk.perform_eq_ok (hr 0 (by omega)) (by simpa using hn _ List.mem_cons_self) hd
      (Directory.write_eq_ok ht hsize)
  have hfound : (entries.put d.temporaryName (.file d.image)).find? d.temporaryName =
      some (.file d.image) := by rw [Directory.find?_put, if_pos rfl]
  have htarget : (entries.put d.temporaryName (.file d.image)).find? d.fileName ≠
      some .folder := by rwa [Directory.find?_put, if_neg d.temporaryName_ne_fileName]
  have hsecond : disk.refusals.tail[0]? ≠ some true := by
    rw [List.getElem?_tail]
    exact hr 1 (by omega)
  have hrename : Disk.rename { disk with
      directory := some (entries.put d.temporaryName (.file d.image))
      refusals := disk.refusals.tail } d.temporaryName d.fileName = _ :=
    Disk.perform_eq_ok hsecond hn rfl (Directory.rename_eq_ok hfound htarget)
  rw [finish_eq]
  rw [hwrite]
  dsimp only
  rw [hrename]
  exact ⟨_, rfl⟩

/-- A draft that was filled is published on a disk that admits its table. -/
theorem publish_eq_ok {disk : Disk} {generation : UInt64} {layout : Layout} {filterBits : Nat}
    {fill : Draft → Except Fault Draft} {d : Draft} (h : disk.Admits generation layout)
    (hfill : fill (empty generation layout filterBits) = .ok d)
    (hform : (empty generation layout filterBits).SameForm d)
    (hsize : d.image.size ≤ Directory.maxFileSize) :
    ∃ disk', publish disk generation layout filterBits fill = (.ok (d.summary disk'), disk') ∧
      d.Published disk disk' := by
  have htemporary := temporaryName_of_sameForm hform
  have hfile := fileName_of_sameForm hform
  have hnames := h.names
  rw [← htemporary, ← hfile] at hnames
  obtain ⟨entries, hentries⟩ := Option.isSome_iff_exists.mp h.directory
  have hcreate : disk.create d.temporaryName = _ :=
    Disk.perform_eq_ok (h.refusals 0 (by omega)) (by simpa using (hnames _ List.mem_cons_self).1)
      hentries (Directory.create_eq_ok (by
        rw [← Disk.find?_of_directory hentries]
        exact (hnames _ List.mem_cons_self).2))
  have hcreated : (entries.put d.temporaryName (.file #[])).find? d.temporaryName =
      some (.file #[]) := by rw [Directory.find?_put, if_pos rfl]
  have htarget : (entries.put d.temporaryName (.file #[])).find? d.fileName ≠ some .folder := by
    rw [Directory.find?_put, if_neg d.temporaryName_ne_fileName,
      ← Disk.find?_of_directory hentries]
    exact (hnames d.fileName (by simp)).2
  have hrefusals : ∀ i < 2, disk.refusals.tail[i]? ≠ some true := by
    intro i hi
    rw [List.getElem?_tail]
    exact h.refusals (i + 1) (by omega)
  have hfinish : ∃ disk', d.finish { disk with
      directory := some (entries.put d.temporaryName (.file #[]))
      refusals := disk.refusals.tail } = (.ok (d.summary disk'), disk') :=
    finish_eq_ok rfl hrefusals (fun name hm => (hnames name hm).1) hcreated htarget hsize
  obtain ⟨disk', hfinish⟩ := hfinish
  have hpublish : publish disk generation layout filterBits fill =
      (.ok (d.summary disk'), disk') := by
    unfold publish start
    rw [← htemporary, hcreate]
    dsimp only
    rw [hfill]
    exact hfinish
  refine ⟨disk', hpublish, ?_⟩
  have hgeneration : ∀ d', fill (empty generation layout filterBits) = .ok d' →
      d'.generation = generation := by
    intro d' hd'
    rw [hfill, Except.ok.injEq] at hd'
    exact hd' ▸ hform.generation
  rcases publish_cases disk generation layout filterBits hgeneration with
    ⟨fault, ho, -⟩ | ⟨d', summary, hd', -, hp⟩
  · rw [hpublish] at ho
    simp at ho
  · rw [hfill, Except.ok.injEq] at hd'
    rw [hpublish, ← hd'] at hp
    exact hp

end Draft

/-! ### The round trip -/

/-- A table gives back what it was built of: its form, its whole image, its filter, and by a scan
from the start as well as row by row the cells, in order. -/
structure Table.GivesBack (t : Table) (generation : UInt64) (layout : Layout)
    (filter : Option Filter) (cells : List Cell) (size : Nat) : Prop where
  generation : t.generation = generation
  layout : t.layout = layout
  rows : t.rows = cells.length
  size : t.image.size = size
  filter : t.filter = filter
  scan : t.scan [] = .ok (cells.map .ok)
  cellAt : ∀ i (h : i < cells.length), t.cellAt i = .ok cells[i]

namespace Draft

theorem Holds.givesBack {d : Draft} {cells : List Cell} (hd : d.Holds cells) (h : d.Fits)
    (path : String) :
    (d.table path).GivesBack d.generation d.layout d.filter cells d.image.size where
  generation := rfl
  layout := rfl
  rows := hd.size
  size := rfl
  filter := rfl
  scan := (hd.table h path).scan_all
  cellAt := (hd.table h path).cellAt

/-- A table of ascending storable cells is published, whatever the size of its filter. -/
theorem exists_build {disk : Disk} {generation : UInt64} {layout : Layout} {filterBits : Nat}
    {cells : List Cell} (ha : Ascending cells) (hs : ∀ cell ∈ cells, cell.IsStorable)
    (hdisk : disk.Admits generation layout)
    (hsize : imageSize layout filterBits cells ≤ Directory.maxFileSize) :
    ∃ d disk', build disk generation layout filterBits (cells.map .ok) =
        (.ok (d.summary disk'), disk') ∧
      d.Published disk disk' ∧ d.Holds cells ∧
      (empty generation layout filterBits).SameForm d ∧
      d.filter = filterOf layout filterBits cells ∧
      d.image.size = imageSize layout filterBits cells := by
  obtain ⟨d, hall, hholds, hform, hfilter, himage⟩ :=
    exists_filled generation layout filterBits ha hs
  have hbuilt : ∃ disk', build disk generation layout filterBits (cells.map .ok) =
      (.ok (d.summary disk'), disk') ∧ d.Published disk disk' :=
    publish_eq_ok hdisk hall hform (himage ▸ hsize)
  obtain ⟨disk', hbuild, hpublished⟩ := hbuilt
  exact ⟨d, disk', hbuild, hpublished, hholds, hform, hfilter, himage⟩

/-- Building a table of ascending storable cells succeeds, whatever the size of its filter. When the
number of filter words fits its field, the file opens, and its image is read under any path, as a
table that gives all back. -/
theorem build_round_trip {disk : Disk} {generation : UInt64} {layout : Layout} {filterBits : Nat}
    {cells : List Cell} (ha : Ascending cells) (hs : ∀ cell ∈ cells, cell.IsStorable)
    (hdisk : disk.Admits generation layout)
    (hsize : imageSize layout filterBits cells ≤ Directory.maxFileSize) :
    ∃ summary image disk',
      build disk generation layout filterBits (cells.map .ok) = (.ok summary, disk') ∧
      disk'.read (TableName.file generation layout) = .ok image ∧
      image.size = imageSize layout filterBits cells ∧
      summary = ⟨disk.pathOf (TableName.file generation layout), generation, layout, cells.length,
        image.size⟩ ∧
      (FilterFits layout filterBits →
        (∃ t, disk'.openTable (TableName.file generation layout) = .ok t ∧ t.summary = summary ∧
          t.GivesBack generation layout (filterOf layout filterBits cells) cells image.size) ∧
        ∀ path, ∃ t, Table.parse path generation layout image = .ok t ∧
          t.GivesBack generation layout (filterOf layout filterBits cells) cells image.size) := by
  obtain ⟨d, disk', hbuild, hpublished, hholds, hform, hfilter, himage⟩ :=
    exists_build ha hs hdisk hsize
  have hgeneration : d.generation = generation := hform.generation
  have hlayout : d.layout = layout := hform.layout
  have hname : d.fileName = TableName.file generation layout := by
    rw [fileName, hgeneration, hlayout]
  have hpath : disk'.pathOf d.fileName = disk.pathOf (TableName.file generation layout) := by
    rw [Disk.pathOf_congr hpublished.sameOutside.path, hname]
  refine ⟨d.summary disk', d.image, disk', hbuild, ?_, himage, ?_, fun hfits => ?_⟩
  · rw [← hname]
    exact Disk.read_eq_ok.mpr ⟨hpublished.reaches, hpublished.file⟩
  · rw [summary, hpath, hgeneration, hlayout, hholds.size]
  · have hfit : d.Fits := ⟨plain_iff_of_sameForm hform, words_lt_of_sameForm hform hfits,
      hpublished.image_le⟩
    have hback := hholds.givesBack hfit
    rw [hgeneration, hlayout, hfilter] at hback
    refine ⟨⟨d.table (disk'.pathOf d.fileName), ?_, rfl, hback _⟩, fun path =>
      ⟨d.table path, ?_, hback path⟩⟩
    · rw [← hname]
      exact (hpublished.openTable hholds hfit.plain_iff hfit.words_lt).1
    · rw [← hgeneration, ← hlayout]
      exact hholds.parse_image hfit path

/-- Three cells, one of them under the empty key and one a tombstone, are built and read back. -/
theorem build_round_trip_of_three :
    let cells : List Cell :=
      [⟨[], .present 0 []⟩, ⟨[97], .tombstone 5⟩, ⟨[97, 0], .present 7 [1, 2]⟩]
    ∃ summary image disk', build { path := "data", directory := some .empty } 3 .filtered 64
        (cells.map .ok) = (.ok summary, disk') ∧
      disk'.read (TableName.file 3 .filtered) = .ok image ∧ image.size = 93 ∧
      ∃ t, disk'.openTable (TableName.file 3 .filtered) = .ok t ∧
        t.scan [] = .ok (cells.map .ok) := by
  intro cells
  have hdisk : ({ path := "data", directory := some .empty } : Disk).Admits 3 .filtered :=
    ⟨rfl, by simp, by decide +kernel⟩
  have hfits : FilterFits .filtered 64 := fun _ => by decide
  have ha : Ascending cells := by
    unfold Ascending
    decide
  have hs : ∀ cell ∈ cells, cell.IsStorable := by decide
  have hsize : imageSize .filtered 64 cells ≤ Directory.maxFileSize := by decide
  obtain ⟨summary, image, disk', hbuild, hread, hsize, -, hback⟩ :=
    build_round_trip ha hs hdisk hsize
  obtain ⟨⟨t, ho, -, ht⟩, -⟩ := hback hfits
  exact ⟨summary, image, disk', hbuild, hread, hsize.trans rfl, t, ho, ht.scan⟩

/-- A table with just as many filter words as four bytes tell apart is built, but its file does not
open. -/
theorem uncounted_not_opened : ∃ summary disk',
    build { path := "data", directory := some .empty } 1 .filtered uncountedBits
      ([⟨[97], .present 1 [98]⟩].map .ok) = (.ok summary, disk') ∧
    disk'.openTable (TableName.file 1 .filtered) = .error (.damage .emptyFilter) := by
  have hdisk : ({ path := "data", directory := some .empty } : Disk).Admits 1 .filtered :=
    ⟨rfl, by simp, by decide +kernel⟩
  have hsize : imageSize .filtered uncountedBits [⟨[97], .present 1 [98]⟩] ≤
      Directory.maxFileSize := by
    rw [imageSize, filterSize, ← Filter.size_insertAll _ [], Filter.size_uncounted]
    decide
  obtain ⟨d, disk', hbuild, hpublished, hholds, hform, hfilter, -⟩ :=
    exists_build (List.pairwise_singleton _ _) (by decide) hdisk hsize
  refine ⟨_, disk', hbuild, ?_⟩
  rw [← hpublished.openTable_uncounted hholds hform hfilter, fileName_of_sameForm hform]

end Draft

end TableStore

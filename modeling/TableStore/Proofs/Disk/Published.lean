import TableStore.Disk.Publication
import TableStore.Proofs.Disk.Files
import TableStore.Proofs.Table.Contents

/-! Publishing a table touches two names, the temporary one and the final one. When it fails, the
final name holds what it held before; when it succeeds, it holds the image of the draft that was
filled, and that image opens as a table with the cells of the draft. -/

namespace TableStore

namespace Draft

/-- A disk on which a draft has been published, and what it was before. -/
structure Published (d : Draft) (disk disk' : Disk) : Prop where
  sameOutside : disk.SameOutside [d.temporaryName, d.fileName] disk'
  file : disk'.find? d.fileName = some (.file d.image)
  temporary : disk'.find? d.temporaryName = none
  reaches : disk'.reaches d.fileName = true
  image_le : d.image.size ≤ Directory.maxFileSize

theorem parse?_fileName (d : Draft) (disk : Disk) :
    TableName.parse? (disk.pathOf d.fileName) = some (d.generation, d.layout) :=
  TableName.parse?_join_file _ _ _

theorem temporaryName_ne_fileName (d : Draft) : d.temporaryName ≠ d.fileName := by
  intro he
  have ht := TableName.isTemporary_join_temporary "" d.generation
  have hf := TableName.isTemporary_of_parse? (TableName.parse?_join_file "" d.generation d.layout)
  rw [show TableName.temporary d.generation = TableName.file d.generation d.layout from he,
    hf] at ht
  simp at ht

/-! ### Outcomes -/

theorem discard_sameOutside (d : Draft) (disk : Disk) :
    disk.SameOutside [d.temporaryName] (d.discard disk) := disk.removeFile_sameOutside _

/-- Completing a draft, one operation after the other. -/
theorem finish_eq (d : Draft) (disk : Disk) :
    d.finish disk =
      match disk.write d.temporaryName d.image with
      | (some fault, disk) => (.error fault, d.discard disk)
      | (none, disk) =>
        match disk.rename d.temporaryName d.fileName with
        | (some fault, disk) => (.error fault, d.discard disk)
        | (none, disk) => (.ok (d.summary disk), disk) := by
  simp only [finish, completion, Disk.performAll]
  rcases disk.write d.temporaryName d.image with ⟨_ | fault, written⟩
  · dsimp only
    rcases written.rename d.temporaryName d.fileName with ⟨_ | fault, renamed⟩ <;> rfl
  · rfl

theorem finish_cases (d : Draft) (disk : Disk) :
    (∃ fault, (d.finish disk).1 = .error fault ∧
      disk.SameOutside [d.temporaryName] (d.finish disk).2) ∨
    ∃ summary, (d.finish disk).1 = .ok summary ∧ d.Published disk (d.finish disk).2 := by
  have hw := disk.write_sameOutside d.temporaryName d.image
  rw [finish_eq]
  rcases hwrite : disk.write d.temporaryName d.image with ⟨_ | fault, written⟩
  · rw [hwrite] at hw
    have hr := written.rename_sameOutside d.temporaryName d.fileName
    dsimp only at hw ⊢
    rcases hrename : written.rename d.temporaryName d.fileName with ⟨_ | fault, renamed⟩
    · rw [hrename] at hr
      dsimp only at hr ⊢
      obtain ⟨hle, hfile⟩ := Disk.write_eq_none hwrite
      obtain ⟨hreach, hfinal, hgone⟩ :=
        Disk.rename_eq_none hrename hfile d.temporaryName_ne_fileName
      have hreaches := Disk.reaches_congr hr.path d.fileName
      have hboth : disk.SameOutside [d.temporaryName, d.fileName] written := hw.mono (by simp)
      exact Or.inr ⟨_, rfl, hboth.trans hr, hfinal, hgone, hreaches.trans hreach, hle⟩
    · dsimp only
      have hsame : written.SameOutside [d.temporaryName] renamed :=
        (Disk.perform_eq_some hrename).mono (by simp)
      refine Or.inl ⟨fault, rfl, ?_⟩
      exact (hw.trans hsame).trans (d.discard_sameOutside renamed)
  · rw [hwrite] at hw
    dsimp only at hw ⊢
    refine Or.inl ⟨fault, rfl, ?_⟩
    exact hw.trans (d.discard_sameOutside written)

/-- Publishing fails and leaves all but the temporary name as it was, or publishes what was
filled. -/
theorem publish_cases (disk : Disk) (generation : UInt64) (layout : Layout) (filterBits : Nat)
    {fill : Draft → Except Fault Draft}
    (hfill : ∀ d, fill (empty generation layout filterBits) = .ok d →
      d.generation = generation) :
    (∃ fault, (publish disk generation layout filterBits fill).1 = .error fault ∧
      disk.SameOutside [TableName.temporary generation]
        (publish disk generation layout filterBits fill).2) ∨
    ∃ d summary, fill (empty generation layout filterBits) = .ok d ∧
      (publish disk generation layout filterBits fill).1 = .ok summary ∧
      d.Published disk (publish disk generation layout filterBits fill).2 := by
  have hc := disk.create_sameOutside (TableName.temporary generation)
  unfold publish start
  rcases hcreate : disk.create (TableName.temporary generation) with ⟨_ | fault, created⟩
  · rw [hcreate] at hc
    dsimp only at hc ⊢
    cases hf : fill (empty generation layout filterBits) with
    | error fault =>
      dsimp only
      have hd := (empty generation layout filterBits).discard_sameOutside created
      rw [temporaryName, show (empty generation layout filterBits).generation = generation from rfl]
        at hd
      exact Or.inl ⟨fault, rfl, hc.trans hd⟩
    | ok d =>
      dsimp only
      have htemp : d.temporaryName = TableName.temporary generation := by
        rw [temporaryName, hfill d hf]
      rcases d.finish_cases created with ⟨fault, ho, hs⟩ | ⟨summary, ho, hp⟩
      · rw [htemp] at hs
        exact Or.inl ⟨fault, ho, hc.trans hs⟩
      · have hboth : disk.SameOutside [d.temporaryName, d.fileName] created :=
          hc.mono (by simp [htemp])
        exact Or.inr ⟨d, summary, rfl, ho, hboth.trans hp.sameOutside, hp.file, hp.temporary,
          hp.reaches, hp.image_le⟩
  · rw [hcreate] at hc
    exact Or.inl ⟨fault, rfl, hc⟩

/-- What publishing has left when it failed. -/
theorem litter_of_publish {disk disk' : Disk} {generation : UInt64} {layout : Layout}
    {filterBits : Nat} {fill : Draft → Except Fault Draft} {fault : Fault}
    (hfill : ∀ d, fill (empty generation layout filterBits) = .ok d → d.generation = generation)
    (h : publish disk generation layout filterBits fill = (.error fault, disk')) :
    disk.SameOutside [TableName.temporary generation] disk' := by
  rcases publish_cases disk generation layout filterBits hfill with
    ⟨_, -, hsame⟩ | ⟨_, _, -, ho, -⟩ <;> rw [h] at *
  · exact hsame
  · simp at ho

theorem exists_published {disk disk' : Disk} {generation : UInt64} {layout : Layout}
    {filterBits : Nat} {fill : Draft → Except Fault Draft} {summary : Summary}
    (hfill : ∀ d, fill (empty generation layout filterBits) = .ok d → d.generation = generation)
    (h : publish disk generation layout filterBits fill = (.ok summary, disk')) :
    ∃ d, fill (empty generation layout filterBits) = .ok d ∧ d.Published disk disk' := by
  rcases publish_cases disk generation layout filterBits hfill with
    ⟨_, ho, -⟩ | ⟨d, _, hd, -, hp⟩ <;> rw [h] at *
  · simp at ho
  · exact ⟨d, hd, hp⟩

/-! ### On the way -/

/-- The operations that publish a draft: its temporary file is there before it is completed. -/
def operations (d : Draft) : List (Disk → Option Fault × Disk) :=
  (·.create d.temporaryName) :: d.completion

/-- A draft is published when all of them succeed. -/
theorem publish_of_operations {disk disk' : Disk} {generation : UInt64} {layout : Layout}
    {filterBits : Nat} {fill : Draft → Except Fault Draft} {d : Draft}
    (hfill : fill (empty generation layout filterBits) = .ok d) (hg : d.generation = generation)
    (h : disk.performAll d.operations = (none, disk')) :
    publish disk generation layout filterBits fill = (.ok (d.summary disk'), disk') := by
  rw [operations, Disk.performAll, temporaryName, hg] at h
  rw [publish, start]
  rcases hcreate : disk.create (TableName.temporary generation) with ⟨_ | fault, created⟩
  · rw [hcreate] at h
    dsimp only at h ⊢
    rw [hfill]
    dsimp only
    rw [finish, h]
  · simp [hcreate] at h

/-- Wherever they stop, only the temporary file has changed, or all of them have succeeded. -/
theorem performAll_take_operations (d : Draft) (disk : Disk) (n : Nat) :
    disk.SameOutside [d.temporaryName] (disk.performAll (d.operations.take n)).2 ∨
      ∃ disk', disk.performAll (d.operations.take n) = (none, disk') ∧
        disk.performAll d.operations = (none, disk') := by
  let before : List (Disk → Option Fault × Disk) :=
    [(·.create d.temporaryName), (·.write d.temporaryName d.image)]
  have hall : d.operations = before ++ [(·.rename d.temporaryName d.fileName)] := rfl
  have hbefore : ∀ operation ∈ before, ∀ disk : Disk,
      disk.SameOutside [d.temporaryName] (operation disk).2 := by
    intro operation hm
    simp only [before, List.mem_cons, List.not_mem_nil, or_false] at hm
    rcases hm with rfl | rfl
    · exact fun disk => disk.create_sameOutside _
    · exact fun disk => disk.write_sameOutside _ _
  by_cases hn : n ≤ before.length
  · refine Or.inl (Disk.performAll_sameOutside (fun operation hm => ?_) disk)
    rw [hall, List.take_append_of_le_length hn] at hm
    exact hbefore operation (List.mem_of_mem_take hm)
  · have hlong : d.operations.length ≤ n := by
      rw [hall, List.length_append]
      exact Nat.lt_of_not_le hn
    rw [List.take_of_length_le hlong]
    rcases hdone : disk.performAll d.operations with ⟨_ | fault, disk'⟩
    · exact Or.inr ⟨disk', rfl, rfl⟩
    · refine Or.inl ?_
      have hwritten := Disk.performAll_sameOutside hbefore disk
      rw [hall, Disk.performAll_concat] at hdone
      rcases hw : disk.performAll before with ⟨_ | _, written⟩ <;> rw [hw] at hdone hwritten
      · have hlast : written.SameOutside [d.temporaryName] disk' :=
          (Disk.perform_eq_some hdone).mono (by simp)
        exact hwritten.trans hlast
      · exact (Prod.mk.inj hdone).2 ▸ hwritten

/-! ### The published table -/

theorem fileName_of_sameForm {generation : UInt64} {layout : Layout} {filterBits : Nat} {d : Draft}
    (h : (empty generation layout filterBits).SameForm d) :
    d.fileName = TableName.file generation layout := by
  rw [fileName, h.generation, h.layout]
  rfl

theorem temporaryName_of_sameForm {generation : UInt64} {layout : Layout} {filterBits : Nat}
    {d : Draft} (h : (empty generation layout filterBits).SameForm d) :
    d.temporaryName = TableName.temporary generation := by
  rw [temporaryName, h.generation]
  rfl

/-- A filter of so many bits can be told in a table: its words are counted in four bytes, which is
enough for 32 GiB of them. -/
def FilterFits (layout : Layout) (filterBits : Nat) : Prop :=
  layout = .filtered → (Filter.empty filterBits).words.size < capacity 4
  deriving Decidable

theorem plain_iff_of_sameForm {generation : UInt64} {layout : Layout} {filterBits : Nat}
    {d : Draft} (h : (empty generation layout filterBits).SameForm d) :
    d.layout = .plain ↔ d.filter = none := by
  have hf := h.filter
  rw [h.layout]
  cases layout with
  | plain =>
    have : d.filter = none := by simpa [empty] using hf
    simp [empty, this]
  | filtered =>
    have : d.filter ≠ none := by
      intro hn
      simp [empty, hn] at hf
    simp [empty, this]

theorem words_lt_of_sameForm {generation : UInt64} {layout : Layout} {filterBits : Nat}
    {d : Draft} (h : (empty generation layout filterBits).SameForm d)
    (hfits : FilterFits layout filterBits) : ∀ f ∈ d.filter, f.words.size < capacity 4 := by
  intro f hm
  have hf := h.filter
  rw [Option.mem_def.mp hm] at hf
  cases layout with
  | plain => simp [empty] at hf
  | filtered =>
    have hs : f.words.size = (Filter.empty filterBits).words.size := by simpa [empty] using hf
    rw [hs]
    exact hfits rfl

/-- The image of a draft, under a name of its generation and layout, opens as a table that holds the
cells of the draft. -/
theorem Holds.openTable {d : Draft} {cells : List Cell} (hd : d.Holds cells) (hfits : d.Fits)
    {disk : Disk} {name : String}
    (hname : TableName.parse? (disk.pathOf name) = some (d.generation, d.layout))
    (hreach : disk.reaches name = true) (hfile : disk.find? name = some (.file d.image)) :
    disk.openTable name = .ok (d.table (disk.pathOf name)) ∧
      (d.table (disk.pathOf name)).Holds cells := by
  refine ⟨?_, hd.table hfits _⟩
  exact Disk.openTable_eq_ok.mpr ⟨d.generation, d.layout, d.image, hname, hreach, hfile,
    hd.parse_image hfits _⟩

/-- What was published and opens has the cells of the draft for its rows, whatever the size of its
filter. -/
theorem Published.cellsFrom {generation : UInt64} {layout : Layout} {filterBits : Nat} {d : Draft}
    {disk disk' : Disk} (h : d.Published disk disk')
    (hform : (empty generation layout filterBits).SameForm d) {cells : List Cell}
    (hd : d.Holds cells) {t : Table} (ho : disk'.openTable d.fileName = .ok t) :
    t.cellsFrom 0 = cells.map .ok := by
  obtain ⟨_, _, image, hparsed, -, hfile, ht⟩ := Disk.openTable_eq_ok.mp ho
  rw [h.file, Option.some.injEq, Entry.file.injEq] at hfile
  rw [d.parse?_fileName, Option.some.injEq, Prod.mk.injEq] at hparsed
  obtain ⟨-, rfl⟩ := hparsed
  subst hfile
  exact hd.cellsFrom_of_parse (plain_iff_of_sameForm hform) h.image_le ht

/-- What was published opens as a table that holds the cells of the draft. -/
theorem Published.openTable {d : Draft} {disk disk' : Disk} (h : d.Published disk disk')
    {cells : List Cell} (hd : d.Holds cells) (hp : d.layout = .plain ↔ d.filter = none)
    (hw : ∀ f ∈ d.filter, f.words.size < capacity 4) :
    disk'.openTable d.fileName = .ok (d.table (disk'.pathOf d.fileName)) ∧
      (d.table (disk'.pathOf d.fileName)).Holds cells :=
  hd.openTable ⟨hp, hw, h.image_le⟩ (d.parse?_fileName disk') h.reaches h.file

end Draft

end TableStore

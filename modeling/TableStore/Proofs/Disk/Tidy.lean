import TableStore.Proofs.Disk.Gains

/-! What becomes of temporary files. A file whose path is short enough is removed when its removal
is asked for, and whatever else has the name stays. So opening a store clears the directory of
unfinished tables but for those that are out of reach, and from then on publishing a table leaves
no trace of its temporary file, whether it succeeds or fails: a temporary file that was created can
also be removed. -/

namespace TableStore

namespace Disk

variable {disk : Disk} {name : String}

/-- A name under which there is a file that can be removed. -/
def IsRemovable (disk : Disk) (name : String) : Prop :=
  disk.reaches name = true ∧ ∃ image, disk.find? name = some (.file image)

theorem removeFile_eq_self (h : ¬ disk.IsRemovable name) : disk.removeFile name = disk := by
  unfold removeFile
  by_cases hr : disk.reaches name = true
  · rw [if_pos hr]
    cases hd : disk.directory with
    | none =>
      cases disk
      cases hd
      rfl
    | some d =>
      have hsame : d.removeFile name = d := by
        unfold Directory.removeFile
        split
        · rename_i image hfile
          exact absurd ⟨hr, image, (find?_of_directory hd name).trans hfile⟩ h
        · rfl
      rw [Option.map_some, hsame, ← hd]
  · rw [if_neg hr]

/-- A name under which there is nothing before and after has not changed. -/
theorem SameOutside.drop {disk' : Disk} {names : List String}
    (h : disk.SameOutside (name :: names) disk') (hbefore : disk.find? name = none)
    (hafter : disk'.find? name = none) : disk.SameOutside names disk' := by
  refine ⟨h.path, fun other hn => ?_⟩
  by_cases ho : other = name
  · rw [ho, hbefore, hafter]
  · exact h.find? other (by simp [ho, hn])

@[simp] theorem removeFiles_nil (disk : Disk) : disk.removeFiles [] = disk := rfl

/-- Of the files to be removed those go that can be removed. -/
theorem find?_removeFiles_of_not_isRemovable {names : List String} (h : ¬ disk.IsRemovable name) :
    (disk.removeFiles names).find? name = disk.find? name := by
  induction names generalizing disk with
  | nil => rfl
  | cons first names ih =>
    show ((disk.removeFile first).removeFiles names).find? name = _
    by_cases he : first = name
    · rw [he, removeFile_eq_self h]
      exact ih h
    · have hsame := disk.removeFile_sameOutside first
      have hfind := hsame.find? name (by simpa using Ne.symm he)
      rw [ih, hfind]
      rwa [IsRemovable, hfind, reaches_congr hsame.path]

theorem find?_removeFiles_of_isRemovable {names : List String} (hm : name ∈ names)
    (h : disk.IsRemovable name) : (disk.removeFiles names).find? name = none := by
  obtain ⟨hr, image, hf⟩ := h
  exact find?_removeFiles hm hr hf

/-- A name that can be created anew had no entry before, or a file that could be removed. -/
theorem of_create_eq_none {next : Disk} (h : disk.create name = (none, next)) :
    disk.reaches name = true ∧ (disk.find? name = none ∨ disk.IsRemovable name) ∧
      next.find? name = some (.file #[]) := by
  rcases disk.perform_cases [name] (Directory.create name) with
    ⟨fault, hp⟩ | ⟨d, d', hd, ho, hr, hp⟩
  · rw [create, hp] at h
    simp at h
  · rw [create, hp, Prod.mk.injEq] at h
    have hreach := hr name (by simp)
    have hfind := find?_of_directory hd name
    rw [← h.2]
    show _ ∧ _ ∧ d'.find? name = _
    unfold Directory.create at ho
    split at ho
    · simp at ho
    · rename_i hnot
      rw [← Except.ok.inj ho, Directory.find?_put, if_pos rfl]
      refine ⟨hreach, ?_, rfl⟩
      rw [hfind]
      cases hf : d.find? name with
      | none => exact Or.inl rfl
      | some entry =>
        cases entry with
        | folder => exact absurd hf hnot
        | file image => exact Or.inr ⟨hreach, image, hfind.trans hf⟩

end Disk

namespace Draft

variable {disk : Disk} {d : Draft}

theorem find?_discard {image : Array UInt8} (hr : disk.reaches d.temporaryName = true)
    (hf : disk.find? d.temporaryName = some (.file image)) :
    (d.discard disk).find? d.temporaryName = none := Disk.find?_removeFile hr hf

/-- A draft that cannot be completed takes its temporary file with it. -/
theorem find?_finish_of_error {image : Array UInt8} {fault : Fault}
    (hr : disk.reaches d.temporaryName = true)
    (hf : disk.find? d.temporaryName = some (.file image))
    (h : (d.finish disk).1 = .error fault) :
    (d.finish disk).2.find? d.temporaryName = none := by
  have hw := disk.write_sameOutside d.temporaryName d.image
  revert h
  rw [finish_eq]
  rcases hwrite : disk.write d.temporaryName d.image with ⟨_ | fault, written⟩
  · rw [hwrite] at hw
    have hreach := (Disk.reaches_congr hw.path d.temporaryName).trans hr
    obtain ⟨-, hfile⟩ := Disk.write_eq_none hwrite
    dsimp only
    rcases hrename : written.rename d.temporaryName d.fileName with ⟨_ | fault, renamed⟩
    · intro h
      simp at h
    · intro _
      have hsame := Disk.perform_eq_some hrename
      have hleft := (hsame.find? d.temporaryName (by simp)).trans hfile
      dsimp only
      exact find?_discard ((Disk.reaches_congr hsame.path _).trans hreach) hleft
  · intro _
    have hsame := Disk.perform_eq_some hwrite
    have hleft := (hsame.find? d.temporaryName (by simp)).trans hf
    dsimp only
    exact find?_discard ((Disk.reaches_congr hsame.path _).trans hr) hleft

/-- A table that was begun and cannot be published takes its temporary file with it. -/
theorem find?_publish_of_create {generation : UInt64} {layout : Layout} {filterBits : Nat}
    {fill : Draft → Except Fault Draft} {fault : Fault} {created : Disk}
    (hcreate : disk.create (TableName.temporary generation) = (none, created))
    (hfill : ∀ d, fill (empty generation layout filterBits) = .ok d →
      (empty generation layout filterBits).SameForm d)
    (h : (publish disk generation layout filterBits fill).1 = .error fault) :
    (publish disk generation layout filterBits fill).2.find? (TableName.temporary generation) =
      none := by
  obtain ⟨hr, -, hfile⟩ := Disk.of_create_eq_none hcreate
  have hc := disk.create_sameOutside (TableName.temporary generation)
  rw [hcreate] at hc
  have hreach := (Disk.reaches_congr hc.path (TableName.temporary generation)).trans hr
  revert h
  unfold publish start
  rw [hcreate]
  dsimp only
  cases hf : fill (empty generation layout filterBits) with
  | error fault =>
    dsimp only
    exact fun _ => find?_discard hreach hfile
  | ok d =>
    rw [← temporaryName_of_sameForm (hfill d hf)] at hreach hfile ⊢
    dsimp only
    exact find?_finish_of_error hreach hfile

/-- A table that cannot be published has not been begun, or its temporary file is gone. -/
theorem publish_of_error {generation : UInt64} {layout : Layout} {filterBits : Nat}
    {fill : Draft → Except Fault Draft} {fault : Fault}
    (hfill : ∀ d, fill (empty generation layout filterBits) = .ok d →
      (empty generation layout filterBits).SameForm d)
    (h : (publish disk generation layout filterBits fill).1 = .error fault) :
    disk.SameOutside [] (publish disk generation layout filterBits fill).2 ∨
      (publish disk generation layout filterBits fill).2.find? (TableName.temporary generation) =
          none ∧
        (disk.find? (TableName.temporary generation) = none ∨
          disk.IsRemovable (TableName.temporary generation)) := by
  rcases hcreate : disk.create (TableName.temporary generation) with ⟨_ | fault, created⟩
  · obtain ⟨-, hbefore, -⟩ := Disk.of_create_eq_none hcreate
    exact Or.inr ⟨find?_publish_of_create hcreate hfill h, hbefore⟩
  · refine Or.inl ?_
    unfold publish start
    rw [hcreate]
    exact Disk.perform_eq_some hcreate

/-- A table that was published was begun. -/
theorem exists_create_of_publish {generation : UInt64} {layout : Layout} {filterBits : Nat}
    {fill : Draft → Except Fault Draft} {summary : Summary}
    (h : (publish disk generation layout filterBits fill).1 = .ok summary) :
    ∃ created, disk.create (TableName.temporary generation) = (none, created) := by
  rcases hcreate : disk.create (TableName.temporary generation) with ⟨_ | fault, created⟩
  · exact ⟨created, rfl⟩
  · unfold publish start at h
    rw [hcreate] at h
    simp at h

/-- Publishing a table changes nothing when it fails, and when it succeeds the final name alone,
which then has the image of the draft. -/
theorem publish_tidy {generation : UInt64} (layout : Layout) (filterBits : Nat)
    (fill : Draft → Except Fault Draft)
    (hclear : ¬ disk.IsRemovable (TableName.temporary generation))
    (hfill : ∀ d, fill (empty generation layout filterBits) = .ok d →
      (empty generation layout filterBits).SameForm d) :
    (∃ fault disk', publish disk generation layout filterBits fill = (.error fault, disk') ∧
      disk.SameOutside [] disk') ∨
    ∃ d summary disk', fill (empty generation layout filterBits) = .ok d ∧
      publish disk generation layout filterBits fill = (.ok summary, disk') ∧
      disk.SameOutside [TableName.file generation layout] disk' ∧
      disk'.find? (TableName.file generation layout) = some (.file d.image) := by
  rcases publish_cases disk generation layout filterBits
    (fun d hd => (hfill d hd).generation) with ⟨fault, ho, hsame⟩ | ⟨d, summary, hd, ho, hp⟩
  · refine Or.inl ⟨fault, _, Prod.ext ho rfl, ?_⟩
    rcases publish_of_error hfill ho with hs | ⟨hgone, hbefore⟩
    · exact hs
    · exact hsame.drop (hbefore.resolve_right hclear) hgone
  · obtain ⟨created, hcreate⟩ := exists_create_of_publish ho
    obtain ⟨-, hbefore, -⟩ := Disk.of_create_eq_none hcreate
    have hform := hfill d hd
    have hsame := hp.sameOutside
    have hgone := hp.temporary
    rw [temporaryName_of_sameForm hform] at hsame hgone
    rw [fileName_of_sameForm hform] at hsame
    refine Or.inr ⟨d, summary, _, hd, Prod.ext ho rfl,
      hsame.drop (hbefore.resolve_right hclear) hgone, ?_⟩
    rw [← fileName_of_sameForm hform]
    exact hp.file

end Draft

end TableStore

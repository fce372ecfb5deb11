import TableStore.Disk.Workbench
import TableStore.Proofs.Disk.Building
import TableStore.Proofs.Disk.Tidy
import TableStore.Proofs.Table.Offers

/-! A draft in the making. Its file stands under its temporary name and holds the beginning of its
records, the rest is held back, and nothing else on the disk changes until the draft is completed.
An offer that is refused changes nothing at all, so a bench is what the accepted offers make of it.
Completing the draft writes what was held back, so the published file holds the whole image; giving
it up takes the file away. -/

namespace TableStore

open Draft (Offer accepted offeredCells offeredFilters)

/-- An output that is continued begins as it did. -/
theorem extract_append_of_le {old : Array UInt8} {more : Bytes} {stop : Nat}
    (h : stop ≤ old.size) : (old ++ more).extract 0 stop = old.extract 0 stop := by
  refine Array.toList_inj.mp ?_
  simp only [Array.toList_extract, Array.toList_appendList, List.extract_eq_take_drop,
    List.drop_zero, Nat.sub_zero]
  exact List.take_append_of_le_length h

/-! ### Writing behind what is there -/

namespace Directory

theorem find?_writeAt_of_ne {name other : String} {position : Nat} {bytes : Array UInt8}
    (d : Directory) (hn : name ≠ other) :
    (writeAt name position bytes d).find? other = d.find? other := by
  unfold writeAt
  split
  · simp [hn]
  · rfl

/-- Writing at the end of a file appends. -/
theorem find?_writeAt {name : String} {old : Array UInt8} {d : Directory}
    (h : d.find? name = some (.file old)) (bytes : Array UInt8) :
    (writeAt name old.size bytes d).find? name = some (.file (old ++ bytes)) := by
  unfold writeAt
  rw [h]
  dsimp only
  rw [find?_put, if_pos rfl, Array.extract_empty_of_size_le_start (Nat.le_add_right _ _)]
  simp

end Directory

namespace Disk

variable {disk : Disk}

theorem writeAt_sameOutside (disk : Disk) (name : String) (position : Nat) (bytes : Array UInt8) :
    disk.SameOutside [name] (disk.writeAt name position bytes) := by
  refine ⟨rfl, fun other hn => ?_⟩
  rw [List.mem_singleton] at hn
  unfold writeAt find?
  cases disk.directory with
  | none => rfl
  | some d => exact Directory.find?_writeAt_of_ne d (Ne.symm hn)

theorem find?_writeAt {name : String} {old : Array UInt8}
    (h : disk.find? name = some (.file old)) (bytes : Array UInt8) :
    (disk.writeAt name old.size bytes).find? name = some (.file (old ++ bytes)) := by
  obtain ⟨d, hd, hf⟩ := Option.bind_eq_some_iff.mp h
  rw [writeAt, find?, hd]
  exact Directory.find?_writeAt hf bytes

/-- An operation takes one item of the plan of refusals. -/
theorem perform_refusals (disk : Disk) (names : List String)
    (operation : Directory → Except DiskFault Directory) :
    (disk.perform names operation).2.refusals = disk.refusals.tail := by
  rcases disk.perform_cases names operation with ⟨fault, h⟩ | ⟨d, d', -, -, -, h⟩ <;> rw [h]

end Disk

namespace Making

variable {m : Making} {disk : Disk}

theorem write_sameOutside {name : String} (hfile : m.file = some name) (disk : Disk)
    (output : Array UInt8) (stop : Nat) : disk.SameOutside [name] (m.write disk output stop) := by
  unfold write
  rw [hfile]
  dsimp only
  split
  · exact disk.writeAt_sameOutside _ _ _
  · exact .refl _ _

theorem write_refusals (m : Making) (disk : Disk) (output : Array UInt8) (stop : Nat) :
    (m.write disk output stop).refusals = disk.refusals := by
  unfold write
  split
  · split <;> rfl
  · rfl

/-- Writing the part of an output that is held back completes the part that is there. -/
theorem find?_write {name : String} {output : Array UInt8} {stop : Nat}
    (hfile : m.file = some name) (hle : m.written ≤ stop) (hstop : stop ≤ output.size)
    (h : disk.find? name = some (.file (output.extract 0 m.written))) :
    (m.write disk output stop).find? name = some (.file (output.extract 0 stop)) := by
  unfold write
  rw [hfile]
  dsimp only
  split
  · have hsize : (output.extract 0 m.written).size = m.written := by
      rw [Array.size_extract]
      omega
    have hfind := Disk.find?_writeAt h (output.extract m.written stop)
    rw [hsize] at hfind
    rw [hfind, Array.extract_append_extract]
    congr 3
    omega
  · have he : m.written = stop := by omega
    rw [← he]
    exact h

theorem writtenAfter_le {written old new : Nat} (hw : written ≤ old) (hle : old ≤ new) :
    written ≤ writtenAfter written old new ∧ writtenAfter written old new ≤ new := by
  unfold writtenAfter
  split
  · omega
  · split <;> omega

end Making

namespace Workbench

/-! ### Offers to the draft on a bench -/

/-- One offer to the draft in the making: the fault, if it is refused, and the bench afterwards. A
bench without a draft has nobody to offer to. -/
def offer (b : Workbench) (o : Offer) : Option Fault × Workbench :=
  match b.making, o with
  | some m, .cell cell => b.add m cell
  | some m, .filter filter => b.seed m filter
  | none, _ => (none, b)

theorem offer_cell {b : Workbench} {m : Making} (h : b.making = some m) (c : Cell) :
    b.offer (.cell c) = b.add m c := by
  unfold offer
  rw [h]

theorem offer_filter {b : Workbench} {m : Making} (h : b.making = some m) (f : Filter) :
    b.offer (.filter f) = b.seed m f := by
  unfold offer
  rw [h]

/-- The bench after offers, be they accepted or refused. -/
def offerAll (b : Workbench) (offers : List Offer) : Workbench :=
  offers.foldl (fun b o => (b.offer o).2) b

theorem offerAll_concat (b : Workbench) (offers : List Offer) (o : Offer) :
    b.offerAll (offers ++ [o]) = ((b.offerAll offers).offer o).2 := by simp [offerAll]

/-- The draft `m` is in the making on a bench whose disk was `before` when it was started. -/
structure Makes (before : Disk) (b : Workbench) (m : Making) : Prop where
  making : b.making = some m
  file : m.file = some m.draft.temporaryName
  sameOutside : before.SameOutside [m.draft.temporaryName] b.disk
  refusals : b.disk.refusals = before.refusals.tail
  reaches : before.reaches m.draft.temporaryName = true
  written_le : m.written ≤ m.draft.records.size
  written : b.disk.find? m.draft.temporaryName =
    some (.file (m.draft.records.extract 0 m.written))

variable {before : Disk} {b opened : Workbench} {m : Making} {generation : UInt64}
  {layout : Layout} {filterBits : Nat}

/-- Starting a draft is creating its file. -/
theorem start_eq (b : Workbench) (generation : UInt64) (layout : Layout) (filterBits : Nat) :
    b.start generation layout filterBits =
      match b.drop.disk.create (TableName.temporary generation) with
      | (some fault, disk) => (some fault, ⟨disk, none⟩)
      | (none, disk) => (none, ⟨disk, some ⟨.empty generation layout filterBits,
          some (TableName.temporary generation), 0⟩⟩) := by
  unfold start Draft.start
  dsimp only
  rcases b.drop.disk.create (TableName.temporary generation) with ⟨_ | fault, created⟩ <;> rfl

/-- A draft that is started has its empty file. -/
theorem makes_of_start (h : b.start generation layout filterBits = (none, opened)) :
    opened.Makes b.drop.disk ⟨.empty generation layout filterBits,
      some (TableName.temporary generation), 0⟩ := by
  rw [start_eq] at h
  rcases hcreate : b.drop.disk.create (TableName.temporary generation) with ⟨_ | fault, created⟩
  · have hsame := b.drop.disk.create_sameOutside (TableName.temporary generation)
    have hrefusals : (b.drop.disk.create (TableName.temporary generation)).2.refusals = _ :=
      Disk.perform_refusals _ _ _
    obtain ⟨hreach, -, hfile⟩ := Disk.of_create_eq_none hcreate
    rw [hcreate] at h hsame hrefusals
    simp only [Prod.mk.injEq, true_and] at h
    subst h
    exact ⟨rfl, rfl, hsame, hrefusals, hreach, Nat.le_refl _, hfile⟩
  · rw [hcreate] at h
    simp at h

/-- A draft can be started on a disk that admits its table. -/
theorem exists_start (h : b.drop.disk.Admits generation layout) (filterBits : Nat) :
    ∃ opened, b.start generation layout filterBits = (none, opened) := by
  obtain ⟨entries, hentries⟩ := Option.isSome_iff_exists.mp h.directory
  obtain ⟨hreach, hfree⟩ := h.names _ List.mem_cons_self
  obtain ⟨created, hcreate⟩ :
      ∃ disk, b.drop.disk.create (TableName.temporary generation) = (none, disk) :=
    ⟨_, Disk.perform_eq_ok (h.refusals 0 (by omega)) (by simpa using hreach) hentries
      (Directory.create_eq_ok (by rwa [← Disk.find?_of_directory hentries]))⟩
  rw [start_eq, hcreate]
  exact ⟨_, rfl⟩

/-- A cell that the draft takes is written behind the others, or held back. -/
theorem Makes.add (h : b.Makes before m) {cell : Cell} {d : Draft}
    (ha : m.draft.add cell = .ok d) :
    ∃ b' m', b.add m cell = (none, b') ∧ b'.Makes before m' ∧ m'.draft = d := by
  obtain ⟨-, record, -, hd⟩ := Draft.add_eq_ok ha
  have hrecords : d.records = m.draft.records ++ record := by rw [hd]
  have hname : d.temporaryName = m.draft.temporaryName := by
    rw [hd]
    rfl
  have hsize : m.draft.records.size ≤ d.records.size := by
    rw [hrecords, ← Array.length_toList, ← Array.length_toList, Array.toList_appendList,
      List.length_append]
    exact Nat.le_add_right _ _
  -- only the bounds of the new position matter, so its cases stay closed
  obtain ⟨written, hdef⟩ : ∃ written, written =
    Making.writtenAfter m.written m.draft.records.size d.records.size := ⟨_, rfl⟩
  obtain ⟨hle, hstop⟩ := hdef ▸ Making.writtenAfter_le h.written_le hsize
  have hbegun : b.disk.find? m.draft.temporaryName =
      some (.file (d.records.extract 0 m.written)) := by
    rw [hrecords, extract_append_of_le h.written_le]
    exact h.written
  have hwritten := m.find?_write h.file hle hstop hbegun
  have hsame := m.write_sameOutside h.file b.disk d.records written
  rw [← hname] at hwritten hsame
  refine ⟨⟨m.write b.disk d.records written, some { m with draft := d, written }⟩,
    { m with draft := d, written }, by rw [Workbench.add, ha, hdef],
    ⟨rfl, ?_, ?_, ?_, ?_, hstop, hwritten⟩, rfl⟩
  · exact hname ▸ h.file
  · exact (hname ▸ h.sameOutside).trans hsame
  · exact (m.write_refusals _ _ _).trans h.refusals
  · exact hname ▸ h.reaches

/-- A filter that the draft unites with its own touches no file. -/
theorem Makes.seed (h : b.Makes before m) {filter : Filter} {d : Draft}
    (ha : m.draft.seed filter = .ok d) :
    ∃ b' m', b.seed m filter = (none, b') ∧ b'.Makes before m' ∧ m'.draft = d := by
  have hname : d.temporaryName = m.draft.temporaryName := by
    rw [Draft.temporaryName, (Draft.SameForm.seed ha).generation]
    rfl
  have hrecords : d.records = m.draft.records := by
    rcases Draft.seed_eq_ok ha with ⟨-, rfl⟩ | ⟨_, _, -, -, rfl⟩ <;> rfl
  refine ⟨{ b with making := some { m with draft := d } }, { m with draft := d },
    by rw [Workbench.seed, ha], ⟨rfl, ?_, ?_, h.refusals, ?_, ?_, ?_⟩, rfl⟩
  · exact hname ▸ h.file
  · exact hname ▸ h.sameOutside
  · exact hname ▸ h.reaches
  · exact hrecords ▸ h.written_le
  · exact hname ▸ hrecords ▸ h.written

/-- An offer is refused and changes nothing, or the draft becomes what it makes of the offer. -/
theorem Makes.offer (h : b.Makes before m) (o : Offer) :
    (∃ fault, m.draft.accept o = .error fault ∧ b.offer o = (some fault, b)) ∨
      ∃ d b' m', m.draft.accept o = .ok d ∧ b.offer o = (none, b') ∧ b'.Makes before m' ∧
        m'.draft = d := by
  cases o with
  | cell c =>
    rw [offer_cell h.making]
    cases ha : m.draft.add c with
    | error fault => exact Or.inl ⟨fault, ha, by rw [Workbench.add, ha]⟩
    | ok d =>
      obtain ⟨b', m', hadd, hmakes, hdraft⟩ := h.add ha
      exact Or.inr ⟨d, b', m', ha, hadd, hmakes, hdraft⟩
  | filter f =>
    rw [offer_filter h.making]
    cases ha : m.draft.seed f with
    | error fault => exact Or.inl ⟨fault, ha, by rw [Workbench.seed, ha]⟩
    | ok d =>
      obtain ⟨b', m', hseed, hmakes, hdraft⟩ := h.seed ha
      exact Or.inr ⟨d, b', m', ha, hseed, hmakes, hdraft⟩

/-- After any offers the draft is made of the accepted ones. -/
theorem exists_makes (h : b.start generation layout filterBits = (none, opened))
    (offers : List Offer) :
    ∃ m, (opened.offerAll offers).Makes b.drop.disk m ∧
      m.draft.IsMadeOf generation layout filterBits (accepted layout filterBits offers) := by
  have hmakes : ∃ m, (opened.offerAll offers).Makes b.drop.disk m ∧
      m.draft = (Draft.empty generation layout filterBits).offerAll offers := by
    -- the bench and a draft without a disk take and refuse the same offers
    induction offers using List.reverseRecOn with
    | nil => exact ⟨_, makes_of_start h, rfl⟩
    | append_singleton offers o ih =>
      obtain ⟨m, hm, hdraft⟩ := ih
      rw [offerAll_concat, Draft.offerAll_concat, ← hdraft]
      rcases hm.offer o with ⟨fault, ha, ho⟩ | ⟨d, b', m', ha, ho, hm', hd⟩
      · rw [ho, ha]
        exact ⟨m, hm, rfl⟩
      · rw [ho, ha]
        exact ⟨m', hm', hd⟩
  obtain ⟨m, hm, hdraft⟩ := hmakes
  exact ⟨m, hm, hdraft ▸ Draft.offerAll_isMadeOf generation layout filterBits offers⟩

/-- An offer is accepted exactly when it is due, and one that is refused changes nothing. -/
theorem offer_of_start (h : b.start generation layout filterBits = (none, opened))
    (offers : List Offer) (o : Offer) :
    if o.IsDue layout filterBits (accepted layout filterBits offers) then
      ((opened.offerAll offers).offer o).1 = none
    else ∃ fault, (opened.offerAll offers).offer o = (some fault, opened.offerAll offers) := by
  obtain ⟨m, hm, hmade⟩ := exists_makes h offers
  rcases hm.offer o with ⟨fault, ha, ho⟩ | ⟨d, b', m', ha, ho, -, -⟩
  · have hnot : ¬ o.IsDue layout filterBits (accepted layout filterBits offers) := by
      rw [← hmade.accept_iff, ha]
      simp
    rw [if_neg hnot]
    exact ⟨fault, ho⟩
  · rw [if_pos ((hmade.accept_iff o).mp ⟨d, ha⟩), ho]

/-- So the accepted offers alone make the same bench. -/
theorem offerAll_eq_accepted (h : b.start generation layout filterBits = (none, opened))
    (offers : List Offer) :
    opened.offerAll offers = opened.offerAll (accepted layout filterBits offers) := by
  induction offers using List.reverseRecOn with
  | nil => rfl
  | append_singleton offers o ih =>
    have ho := offer_of_start h offers o
    rw [Draft.accepted_concat, offerAll_concat]
    split at ho
    · rw [if_pos (by assumption), offerAll_concat, ih]
    · obtain ⟨fault, ho⟩ := ho
      rw [if_neg (by assumption), ho]
      exact ih

/-! ### The end of a draft -/

/-- Writing what is held back of an output that begins with the records completes its file. -/
theorem Makes.write_all (h : b.Makes before m) {output : Array UInt8}
    (hbegins : output.extract 0 m.written = m.draft.records.extract 0 m.written)
    (hsize : m.draft.records.size ≤ output.size) :
    before.SameOutside [m.draft.temporaryName] (m.write b.disk output output.size) ∧
      (m.write b.disk output output.size).find? m.draft.temporaryName = some (.file output) := by
  have hbegun := h.written
  rw [← hbegins] at hbegun
  refine ⟨h.sameOutside.trans (m.write_sameOutside h.file _ _ _), ?_⟩
  rw [m.find?_write h.file (Nat.le_trans h.written_le hsize) (Nat.le_refl _) hbegun,
    Array.extract_size]

theorem Makes.write_image (h : b.Makes before m) :
    before.SameOutside [m.draft.temporaryName]
        (m.write b.disk m.draft.image m.draft.image.size) ∧
      (m.write b.disk m.draft.image m.draft.image.size).find? m.draft.temporaryName =
        some (.file m.draft.image) := by
  refine h.write_all (extract_append_of_le h.written_le) ?_
  rw [m.draft.size_image]
  omega

/-- A draft that is given up takes its file with it, and nothing else has changed. -/
theorem Makes.drop (h : b.Makes before m) :
    before.SameOutside [m.draft.temporaryName] b.drop.disk ∧
      b.drop.disk.find? m.draft.temporaryName = none := by
  have hdrop : b.drop.disk =
      m.draft.discard (m.write b.disk m.draft.records m.draft.records.size) := by
    unfold Workbench.drop
    rw [h.making]
  obtain ⟨hsame, hfile⟩ := h.write_all rfl (Nat.le_refl _)
  have hreach := (Disk.reaches_congr hsame.path _).trans h.reaches
  rw [hdrop]
  exact ⟨hsame.trans (m.draft.discard_sameOutside _), Draft.find?_discard hreach hfile⟩

/-- A draft that is completed is published or given up. -/
theorem Makes.finish_cases (h : b.Makes before m) :
    (∃ fault b', b.finish m = (.error fault, b') ∧
      before.SameOutside [m.draft.temporaryName] b'.disk ∧
      b'.disk.find? m.draft.temporaryName = none) ∨
    ∃ summary b', b.finish m = (.ok summary, b') ∧
      before.SameOutside [m.draft.temporaryName, m.draft.fileName] b'.disk ∧
      b'.disk.find? m.draft.fileName = some (.file m.draft.image) ∧
      b'.disk.find? m.draft.temporaryName = none ∧ b'.disk.reaches m.draft.fileName = true := by
  obtain ⟨hsame, hfile⟩ := h.write_image
  unfold Workbench.finish
  dsimp only
  generalize m.write b.disk m.draft.image m.draft.image.size = written at hsame hfile ⊢
  rcases hrename : written.rename m.draft.temporaryName m.draft.fileName with ⟨_ | fault, renamed⟩
  · have hr := written.rename_sameOutside m.draft.temporaryName m.draft.fileName
    rw [hrename] at hr
    obtain ⟨hreach, hfinal, hgone⟩ :=
      Disk.rename_eq_none hrename hfile m.draft.temporaryName_ne_fileName
    exact Or.inr ⟨_, ⟨renamed, none⟩, rfl, (hsame.mono (by simp)).trans hr, hfinal, hgone,
      (Disk.reaches_congr hr.path _).trans hreach⟩
  · have hr : written.SameOutside [m.draft.temporaryName] renamed :=
      (Disk.perform_eq_some hrename).mono (by simp)
    have hleft := ((Disk.perform_eq_some hrename).find? m.draft.temporaryName (by simp)).trans hfile
    have hreach := (Disk.reaches_congr (hsame.trans hr).path m.draft.temporaryName).trans h.reaches
    have hgone : (m.draft.discard renamed).find? m.draft.temporaryName = none :=
      Draft.find?_discard hreach hleft
    have hall := (hsame.trans hr).trans (m.draft.discard_sameOutside renamed)
    refine Or.inl ⟨fault, ⟨m.draft.discard renamed, none⟩, rfl, ?_, ?_⟩
    · dsimp only
      exact hall
    · dsimp only
      exact hgone

/-- A draft is published on a disk that admitted its table when it was started. -/
theorem Makes.finish_eq_ok (h : b.Makes before m)
    (hdisk : before.Admits m.draft.generation m.draft.layout) :
    ∃ b', b.finish m = (.ok (m.draft.summary b'.disk), b') := by
  obtain ⟨hsame, hfile⟩ := h.write_image
  have hplan := m.write_refusals b.disk m.draft.image m.draft.image.size
  unfold Workbench.finish
  dsimp only
  generalize m.write b.disk m.draft.image m.draft.image.size = written at hsame hfile hplan ⊢
  obtain ⟨entries, hentries, hfound⟩ := Option.bind_eq_some_iff.mp hfile
  have hrefusals : written.refusals[0]? ≠ some true := by
    rw [hplan, h.refusals, List.getElem?_tail]
    exact hdisk.refusals 1 (by omega)
  have hnames : ∀ name ∈ [m.draft.temporaryName, m.draft.fileName], written.reaches name = true :=
    fun name hn => (Disk.reaches_congr hsame.path name).trans (hdisk.names name hn).1
  have htarget : entries.find? m.draft.fileName ≠ some .folder := by
    rw [← Disk.find?_of_directory hentries,
      hsame.find? _ (by simpa using m.draft.temporaryName_ne_fileName.symm)]
    exact (hdisk.names m.draft.fileName (List.mem_cons_of_mem _ (List.mem_singleton_self _))).2
  obtain ⟨renamed, hrename⟩ :
      ∃ disk, written.rename m.draft.temporaryName m.draft.fileName = (none, disk) :=
    ⟨_, Disk.perform_eq_ok hrefusals hnames hentries (Directory.rename_eq_ok hfound htarget)⟩
  rw [hrename]
  exact ⟨⟨renamed, none⟩, rfl⟩

/-! ### Any offers -/

/-- Any offers to a draft that was started, and its completion. An offer is accepted exactly when it
is due, and one that is refused leaves the bench as it was. So the bench is the one that the
accepted offers make, the draft on it is also made by the filters among them and then the cells, and
what is published, as it is where the disk admits the table, is its image. -/
theorem offerAll_accepted (hstart : b.start generation layout filterBits = (none, opened))
    (offers : List Offer) :
    (∀ o, if o.IsDue layout filterBits (accepted layout filterBits offers) then
        ((opened.offerAll offers).offer o).1 = none
      else ∃ fault, (opened.offerAll offers).offer o = (some fault, opened.offerAll offers)) ∧
    opened.offerAll offers = opened.offerAll (accepted layout filterBits offers) ∧
    ∃ m, (opened.offerAll offers).making = some m ∧
      (Draft.empty generation layout filterBits).acceptAll
        ((offeredFilters (accepted layout filterBits offers)).map .filter ++
          (offeredCells (accepted layout filterBits offers)).map .cell) = .ok m.draft ∧
      (∀ summary after, (opened.offerAll offers).finish m = (.ok summary, after) →
        after.disk.find? (TableName.file generation layout) = some (.file m.draft.image)) ∧
      (b.drop.disk.Admits generation layout →
        ∃ summary after, (opened.offerAll offers).finish m = (.ok summary, after)) := by
  obtain ⟨m, hm, hmade⟩ := exists_makes hstart offers
  refine ⟨offer_of_start hstart offers, offerAll_eq_accepted hstart offers, m, hm.making,
    Draft.acceptAll_sorted hmade.acceptAll, fun summary after hfinish => ?_, fun hdisk => ?_⟩
  · rcases hm.finish_cases with ⟨fault, b', ho, -⟩ | ⟨_, b', ho, -, hfile, -⟩
    · simp [ho] at hfinish
    · rw [ho, Prod.mk.injEq] at hfinish
      rw [← hfinish.2, ← Draft.fileName_of_sameForm hmade.form]
      exact hfile
  · obtain ⟨b', ho⟩ := hm.finish_eq_ok (by rwa [hmade.form.generation, hmade.form.layout])
    exact ⟨_, b', ho⟩

/-- Of eight offers three are accepted, and they alone make the image. -/
theorem offerAll_accepted_three_of_eight :
    let b : Workbench := ⟨{ path := "data", directory := some .empty }, none⟩
    let a : Cell := ⟨[97], .present 0 [1]⟩
    let seed : Filter := (Filter.empty 64).insert [120]
    let last : Cell := ⟨[98], .tombstone 5⟩
    let offers : List Offer := [.cell a, .cell a, .cell ⟨[98], .absent⟩, .cell ⟨[98], .tombstone 0⟩,
      .cell ⟨[98], .present (-1) []⟩, .filter (.empty 128), .filter seed, .cell last]
    ∃ opened m summary after, b.start 3 .filtered 64 = (none, opened) ∧
      opened.offerAll offers = opened.offerAll [.cell a, .filter seed, .cell last] ∧
      (opened.offerAll offers).finish m = (.ok summary, after) ∧
      (Draft.empty 3 .filtered 64).acceptAll [.filter seed, .cell a, .cell last] = .ok m.draft ∧
      after.disk.find? (TableName.file 3 .filtered) = some (.file m.draft.image) := by
  intro b a seed last offers
  have hdisk : b.drop.disk.Admits 3 .filtered := ⟨rfl, by simp [b, drop], by decide +kernel⟩
  have htaken : accepted .filtered 64 offers = [.cell a, .filter seed, .cell last] := by rfl
  obtain ⟨opened, hstart⟩ := exists_start hdisk 64
  obtain ⟨-, hsame, m, -, hmade, hfile, hfinish⟩ := offerAll_accepted hstart offers
  obtain ⟨summary, after, hok⟩ := hfinish hdisk
  rw [htaken] at hsame hmade
  exact ⟨opened, m, summary, after, hstart, hsame, hok, hmade, hfile summary after hok⟩

/-- A key that is longer than four bytes can count is refused, although it is the first one offered
and its version can be stored. -/
theorem long_key_refused :
    let b : Workbench := ⟨{ path := "data", directory := some .empty }, none⟩
    ∃ opened cell, b.start 1 .plain 64 = (none, opened) ∧ cell.key.length = 4294967296 ∧
      cell.version = .present 0 [] ∧ cell.version.IsStorable ∧
      opened.offer (.cell cell) = (some (.misfit .longKey), opened) := by
  intro b
  have hdisk : b.drop.disk.Admits 1 .plain := ⟨rfl, by simp [b, drop], by decide +kernel⟩
  obtain ⟨opened, hstart⟩ := exists_start hdisk 64
  obtain ⟨m, hm, hmade⟩ := exists_makes hstart []
  obtain ⟨key, hlength⟩ : ∃ key : Bytes, key.length = 4294967296 :=
    ⟨List.replicate 4294967296 0, List.length_replicate⟩
  have hlong : Record.maxLength < key.length := by
    rw [hlength]
    decide
  have hfirst : m.draft.lastKey = none := hmade.holds.lastKey
  have hadd : m.draft.add ⟨key, .present 0 []⟩ = .error (.misfit .longKey) := by
    simp [Draft.add, Record.encode, hfirst, hlong]
  have hoffer : (opened.offerAll []).offer (.cell ⟨key, .present 0 []⟩) =
      (some (.misfit .longKey), opened.offerAll []) := by
    rw [offer_cell hm.making, Workbench.add, hadd]
  exact ⟨opened, ⟨key, .present 0 []⟩, hstart, hlength, rfl, ⟨by decide, Nat.zero_le _⟩, hoffer⟩

end Workbench

end TableStore

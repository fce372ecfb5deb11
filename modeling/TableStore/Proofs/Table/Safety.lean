import Mathlib.Algebra.GroupWithZero.Nat
import Mathlib.Data.List.Induction
import TableStore.Proofs.Table.Guarded
import TableStore.Proofs.Table.Image

/-! Every image can be read safely. Whatever the bytes, opening them checks enough for the record
region and the index to lie in the image, one behind the other, and a record is read from the record
region only. So no number leaves its word, no end leaves the image, the search is over after as many
turns as the number of rows has binary digits, and a cursor after one more than there are rows: the
guarded reader ends as the plain one does. Where a key or a payload is handed out, it is the part of
the record region that the row's offset leads to. -/

namespace TableStore

/-! ### Filters -/

namespace Filter

open TableStore.Guarded

theorem guarded_readWords {n : Nat} {bytes : Bytes} (h : n * 8 ≤ bytes.length) :
    Guarded.readWords n bytes = of (.ok (readWords n bytes)) := by
  induction n generalizing bytes with
  | zero => rfl
  | succ n ih =>
    have hrest : n * 8 ≤ (bytes.drop 8).length := by
      rw [List.length_drop]
      omega
    rw [Guarded.readWords, if_neg (by omega), ih hrest]
    rfl

theorem guarded_decodeWords {bytes : Bytes} {n : Nat} (h : n * 8 < UInt64.size) :
    Guarded.decodeWords bytes n = of (decodeWords bytes n) := by
  rw [Guarded.decodeWords, product_eq h, of_ok_bind, decodeWords, Nat.mod_eq_of_lt h]
  split
  · rename_i hl
    rw [guarded_readWords (Nat.le_of_eq hl.symm)]
    rfl
  · rfl

theorem allM_eq {α : Type} {p : α → TableStore.Guarded Bool} {q : α → Bool} (l : List α)
    (h : ∀ a, p a = of (.ok (q a))) : l.allM p = of (.ok (l.all q)) := by
  induction l with
  | nil => rfl
  | cons a l ih =>
    rw [List.allM, h, of_ok_bind, List.all_cons]
    cases q a with
    | true => exact ih
    | false => rfl

theorem guarded_hasBit {f : Filter} {i : Nat} (h : i < f.bits) :
    Guarded.hasBit f i = of (.ok (f.hasBit i)) := by
  unfold bits at h
  exact if_pos (by omega)

theorem guarded_position {bits : Nat} (h : 0 < bits) (key : Bytes) (multiplier : UInt64) :
    Guarded.position bits key multiplier = of (.ok (position bits key multiplier)) :=
  if_neg (by omega)

/-- A key's bits are asked for inside the filter. -/
theorem guarded_mayContain {f : Filter} (h : f.words.size * 64 < UInt64.size) (key : Bytes) :
    Guarded.mayContain f key = of (.ok (f.mayContain key)) := by
  have hproduct : product f.words.size 64 = of (.ok (f.words.size * 64)) := product_eq h
  have hbits : f.words.size * 64 = f.bits := rfl
  rw [Guarded.mayContain, mayContain, positions, List.all_map]
  apply allM_eq
  intro multiplier
  have hlt : position f.bits key multiplier < f.bits := by
    unfold position
    exact Nat.mod_lt _ f.bits_pos
  rw [hproduct, of_ok_bind, hbits, guarded_position f.bits_pos, of_ok_bind, guarded_hasBit hlt,
    Function.comp_apply]

end Filter

/-- A number is less than its bytes can tell apart. -/
theorem ofBigEndian_lt (bytes : Bytes) : ofBigEndian bytes < capacity bytes.length := by
  induction bytes using List.reverseRecOn with
  | nil => decide
  | append_singleton bytes b ih =>
    have hb := b.toNat_lt
    rw [ofBigEndian_append_singleton, List.length_append, List.length_singleton, capacity]
    omega

namespace Table

open TableStore.Guarded

/-! ### Opening -/

/-- The regions of a table lie in its image one behind the other, and its filter was read from the
image. -/
structure IsFramed (t : Table) : Prop where
  recordsEnd_le : t.recordsEnd ≤ t.indexStart
  size_eq : t.image.size = t.indexStart + t.rows * 8 + 8
  filter_le : ∀ f ∈ t.filter, f.words.size * 8 ≤ t.image.size

theorem length_bytesOf {image : Array UInt8} {start stop : Nat} (h : stop ≤ image.size) :
    (bytesOf image start stop).length = stop - start := by
  rw [bytesOf, Array.length_toList, Array.size_extract, Nat.min_eq_left h]

theorem length_readWords (n : Nat) (bytes : Bytes) : (Filter.readWords n bytes).length = n := by
  induction n generalizing bytes with
  | zero => rfl
  | succ n ih => rw [Filter.readWords, List.length_cons, ih]

variable {path : String} {generation : UInt64} {layout : Layout} {image : Array UInt8}

theorem size_of_decodeWords {bytes : Bytes} {n : Nat} {f : Filter}
    (h : Filter.decodeWords bytes n = .ok f) : f.words.size * 8 = bytes.length := by
  unfold Filter.decodeWords at h
  split at h
  · rename_i hl
    unfold Filter.ofWords at h
    split at h
    · rw [← Except.ok.inj h]
      simp [length_readWords, hl]
    · simp at h
  · simp at h

/-- The filter stands in front of the index. -/
theorem filterBefore_le {stop start : Nat} {f : Filter} (hs : stop ≤ image.size)
    (h : filterBefore path image stop = .ok (start, f)) :
    start ≤ stop ∧ f.words.size * 8 ≤ image.size := by
  unfold filterBefore at h
  by_cases hshort : stop < 4
  · simp [hshort] at h
  · by_cases hover : stop - 4 < numberOf image (stop - 4) 4 * 8
    · simp [hshort, hover] at h
    · simp only [if_neg hshort, if_neg hover, pure_eq_ok, bind_eq_ok, Except.ok.injEq,
        Prod.mk.injEq] at h
      obtain ⟨f', hf, rfl, rfl⟩ := h
      rw [size_of_decodeWords hf, length_bytesOf (by omega)]
      omega

theorem regions_le {indexStart recordsEnd : Nat} {filter : Option Filter}
    (hi : indexStart ≤ image.size)
    (h : regions path layout image indexStart = .ok (recordsEnd, filter)) :
    recordsEnd ≤ indexStart ∧ ∀ f ∈ filter, f.words.size * 8 ≤ image.size := by
  cases layout with
  | plain =>
    simp only [regions, Except.ok.injEq, Prod.mk.injEq] at h
    simp [← h.1, ← h.2]
  | filtered =>
    simp only [regions, bind_eq_ok, pure_eq_ok, Except.ok.injEq, Prod.mk.injEq] at h
    obtain ⟨⟨start, f⟩, hf, rfl, rfl⟩ := h
    simpa using filterBefore_le hi hf

/-- What opening an image has checked, and the table that it makes. -/
theorem parse_eq_ok {t : Table} (h : parse path generation layout image = .ok t) :
    8 ≤ image.size ∧ t.rows * 8 ≤ image.size - 8 ∧ t.image = image ∧
      t.indexStart = image.size - 8 - t.rows * 8 ∧
      regions path layout image t.indexStart = .ok (t.recordsEnd, t.filter) := by
  unfold parse at h
  by_cases hs : image.size < 8
  · simp [hs] at h
  · by_cases hr : image.size - 8 < numberOf image (image.size - 8) 8 * 8
    · simp [hs, hr] at h
    · simp only [if_neg hs, if_neg hr, bind_eq_ok] at h
      obtain ⟨⟨recordsEnd, filter⟩, hregions, h⟩ := h
      dsimp only at h
      split at h
      · simp at h
      · rw [pure_eq_ok, Except.ok.injEq] at h
        rw [← h]
        exact ⟨Nat.not_lt.mp hs, Nat.not_lt.mp hr, rfl, rfl, hregions⟩

theorem isFramed_of_parse {t : Table} (h : parse path generation layout image = .ok t) :
    t.IsFramed := by
  obtain ⟨hsize, hrows, rfl, hindex, hregions⟩ := parse_eq_ok h
  obtain ⟨hrecords, hfilter⟩ := regions_le (by omega) hregions
  exact ⟨hrecords, by omega, hfilter⟩

/-! ### Opening with guards -/

theorem numberOf_lt {start width : Nat} (h : start + width ≤ image.size) :
    numberOf image start width < capacity width := by
  have hlt := ofBigEndian_lt (bytesOf image start (start + width))
  rwa [length_bytesOf h, Nat.add_sub_cancel_left] at hlt

theorem guarded_filterBefore {stop : Nat} (hs : stop ≤ image.size) :
    Guarded.filterBefore path image stop = of (filterBefore path image stop) := by
  unfold Guarded.filterBefore filterBefore
  by_cases hshort : stop < 4
  · simp [hshort]
  · have hstop : stop - 4 + 4 = stop := by omega
    have hlt : numberOf image (stop - 4) 4 < capacity 4 := numberOf_lt (by omega)
    have hwords : ofBigEndian (bytesOf image (stop - 4) stop) = numberOf image (stop - 4) 4 := by
      rw [numberOf, hstop]
    have hcapacity : capacity 4 * 8 < UInt64.size := by decide
    simp only [if_neg hshort, pure_eq_of, pure_eq_ok]
    rw [difference_eq (by omega), of_ok_bind, part_eq (by omega) hs, of_ok_bind, hwords,
      product_eq (by omega), of_ok_bind]
    by_cases hover : stop - 4 < numberOf image (stop - 4) 4 * 8
    · simp [hover]
    · simp only [if_neg hover]
      rw [difference_eq (by omega), of_ok_bind, part_eq (by omega) (by omega), of_ok_bind,
        Filter.guarded_decodeWords (by omega)]
      exact of_bind fun _ _ => rfl

theorem guarded_regions {indexStart : Nat} (hi : indexStart ≤ image.size) :
    Guarded.regions path layout image indexStart = of (regions path layout image indexStart) := by
  cases layout with
  | plain => rfl
  | filtered =>
    rw [Guarded.regions, guarded_filterBefore hi]
    exact of_bind fun _ _ => rfl

theorem guarded_offset {t : Table} (h : t.IsFramed) (hw : t.image.size < UInt64.size) (row : Nat) :
    Guarded.offset t row = of (t.offset row) := by
  have hsize := h.size_eq
  unfold Guarded.offset offset
  split
  · rw [product_eq (by omega), of_ok_bind, sum_eq (by omega), of_ok_bind, number_eq (by omega) hw]
  · rfl

theorem guarded_checkIndex {t : Table} (h : t.IsFramed) (hw : t.image.size < UInt64.size) :
    Guarded.checkIndex t = of (if 0 < t.rows ∧
      t.recordsEnd ≤ numberOf t.image (t.indexStart + (t.rows - 1) * 8) 8 then
        .error (.damage (.indexOverrun t.path)) else .ok t) := by
  unfold Guarded.checkIndex
  by_cases hrows : 0 < t.rows
  · have hoffset : t.offset (t.rows - 1) =
        .ok (numberOf t.image (t.indexStart + (t.rows - 1) * 8) 8) := if_pos (by omega)
    rw [if_pos hrows, difference_eq hrows, of_ok_bind, guarded_offset h hw, hoffset, of_ok_bind]
    simp only [hrows, true_and]
    split <;> rfl
  · simp [hrows]

/-- Opening an image ends as it does without guards, whatever the image. -/
theorem guarded_parse (hw : image.size < UInt64.size) :
    Guarded.parse path generation layout image = of (parse path generation layout image) := by
  unfold Guarded.parse parse
  by_cases hs : image.size < 8
  · simp [hs]
  · have hend : image.size - 8 + 8 = image.size := by omega
    have hnumber : ofBigEndian (bytesOf image (image.size - 8) image.size) =
        numberOf image (image.size - 8) 8 := by rw [numberOf, hend]
    simp only [if_neg hs, pure_eq_ok, throw_eq_of, throw_eq_error]
    rw [difference_eq (by omega), of_ok_bind, part_eq (by omega) (Nat.le_refl _), of_ok_bind,
      hnumber]
    by_cases hr : image.size - 8 < numberOf image (image.size - 8) 8 * 8
    · simp [hr]
    · rw [if_neg (by omega)]
      simp only [if_neg hr]
      rw [difference_eq (by omega), of_ok_bind, guarded_regions (by omega)]
      refine of_bind fun found hregions => ?_
      obtain ⟨recordsEnd, filter⟩ := found
      obtain ⟨hrecords, hfilter⟩ := regions_le (by omega) hregions
      dsimp only
      rw [guarded_checkIndex ⟨hrecords, by dsimp only; omega, hfilter⟩ hw]
      split <;> rfl

/-! ### Rows with guards -/

section

variable {t : Table}

theorem guarded_slice (h : t.IsFramed) (hw : t.image.size < UInt64.size) (start length : Nat) :
    Guarded.slice t start length = of (t.slice start length) := by
  have hrecords := h.recordsEnd_le
  have hsize := h.size_eq
  unfold Guarded.slice slice
  by_cases hle : start + length ≤ t.recordsEnd
  · rw [if_pos ⟨by omega, hle⟩, if_pos hle, part_eq (by omega) (by omega)]
  · rw [if_neg (fun hin => hle hin.2), if_neg hle]
    rfl

/-- What lies in the record region lies in the image. -/
theorem of_slice_eq_ok {start length : Nat} {bytes : Bytes} (h : t.slice start length = .ok bytes) :
    start + length ≤ t.recordsEnd ∧ bytes = bytesOf t.image start (start + length) := by
  unfold slice at h
  split at h
  · exact ⟨‹_›, (Except.ok.inj h).symm⟩
  · simp at h

theorem guarded_countedAt (h : t.IsFramed) (hw : t.image.size < UInt64.size) (start : Nat) :
    Guarded.countedAt t start = of (t.countedAt start) := by
  have hrecords := h.recordsEnd_le
  have hsize := h.size_eq
  rw [Guarded.countedAt, guarded_slice h hw, countedAt]
  refine of_bind fun field hfield => ?_
  have hstart := (of_slice_eq_ok hfield).1
  rw [sum_eq (by omega), of_ok_bind, guarded_slice h hw]
  refine of_bind fun bytes hbytes => ?_
  obtain ⟨hend, rfl⟩ := of_slice_eq_ok hbytes
  rw [sum_eq (by omega), of_ok_bind, part_eq (by omega) (by omega)]
  rfl

theorem guarded_keyAt (h : t.IsFramed) (hw : t.image.size < UInt64.size) (row : Nat) :
    Guarded.keyAt t row = of (t.keyAt row) := by
  rw [Guarded.keyAt, guarded_offset h hw, keyAt]
  refine of_bind fun offset _ => ?_
  rw [guarded_countedAt h hw]
  exact of_bind fun _ _ => rfl

theorem guarded_readStampField (field : Int64) :
    Guarded.readStampField field = of (Record.readStampField field) := by
  unfold Guarded.readStampField Record.readStampField Guarded.magnitude
  by_cases hm : field = Int64.minValue
  · simp [hm]
  · simp only [if_neg hm, pure_eq_of, of_ok_bind]
    by_cases hneg : field < 0 <;> simp [hneg]

theorem guarded_cellAt (h : t.IsFramed) (hw : t.image.size < UInt64.size) (row : Nat) :
    Guarded.cellAt t row = of (t.cellAt row) := by
  have hrecords := h.recordsEnd_le
  have hsize := h.size_eq
  rw [Guarded.cellAt, guarded_offset h hw, cellAt]
  refine of_bind fun offset _ => ?_
  rw [guarded_countedAt h hw]
  refine of_bind fun counted _ => ?_
  obtain ⟨key, next⟩ := counted
  dsimp only
  rw [guarded_slice h hw]
  refine of_bind fun field hfield => ?_
  have hend := (of_slice_eq_ok hfield).1
  rw [sum_eq (by omega), of_ok_bind, guarded_readStampField]
  refine of_bind fun stamp _ => ?_
  obtain ⟨removed, stamp⟩ := stamp
  dsimp only
  cases removed with
  | true => rfl
  | false =>
    simp only [Bool.false_eq_true, if_false, guarded_countedAt h hw]
    exact of_bind fun _ _ => rfl

/-! ### Searching and scanning with guards -/

/-- As many turns suffice as the rows still to be searched can be halved. -/
theorem guarded_search (h : t.IsFramed) (hw : t.image.size < UInt64.size) (key : Bytes)
    {turns low high : Nat} (ht : high - low < 2 ^ turns) (hh : high ≤ t.rows) :
    Guarded.search t key turns low high = of (t.search key low high) := by
  have hsize := h.size_eq
  induction turns generalizing low high with
  | zero =>
    have hnot : ¬ low < high := by omega
    rw [Guarded.search, search, if_neg hnot, if_neg hnot]
    rfl
  | succ turns ih =>
    rw [Guarded.search, search]
    by_cases hlt : low < high
    · rw [Nat.pow_succ] at ht
      rw [if_pos hlt, if_pos hlt, difference_eq (by omega), of_ok_bind, sum_eq (by omega),
        of_ok_bind, guarded_keyAt h hw]
      refine of_bind fun found _ => ?_
      by_cases hless : found < key
      · rw [if_pos hless, if_pos hless, sum_eq (by omega), of_ok_bind]
        exact ih (by omega) hh
      · rw [if_neg hless, if_neg hless]
        exact ih (by omega) (by omega)
    · rw [if_neg hlt, if_neg hlt]
      rfl

theorem guarded_position (h : t.IsFramed) (hw : t.image.size < UInt64.size) (key : Bytes) :
    Guarded.position t key = of (t.position key) :=
  guarded_search h hw key Nat.lt_log2_self (Nat.le_refl _)

theorem guarded_mayContain (h : t.IsFramed) (hw : t.image.size * 8 < UInt64.size) (key : Bytes) :
    Guarded.mayContain t key = of (.ok (t.mayContain key)) := by
  unfold Guarded.mayContain mayContain
  cases hf : t.filter with
  | none => rfl
  | some f =>
    have hwords : f.words.size * 8 ≤ t.image.size := h.filter_le f hf
    have hlt : f.words.size * 64 < UInt64.size := by omega
    dsimp only
    rw [Option.all_some, Filter.guarded_mayContain hlt]

theorem guarded_get? (h : t.IsFramed) (hw : t.image.size * 8 < UInt64.size) (key : Bytes) :
    Guarded.get? t key = of (t.get? key) := by
  have hword : t.image.size < UInt64.size := by omega
  rw [Guarded.get?, get?, guarded_mayContain h hw, of_ok_bind]
  cases t.mayContain key with
  | false => rfl
  | true =>
    simp only [not_true_eq_false, if_false, guarded_position h hword, guarded_keyAt h hword,
      guarded_cellAt h hword, pure_eq_of, pure_eq_ok]
    refine of_bind fun row _ => ?_
    split
    · rfl
    · refine of_bind fun found _ => ?_
      split
      · rfl
      · exact of_bind fun _ _ => rfl

theorem guarded_cellsFrom (h : t.IsFramed) (hw : t.image.size < UInt64.size) {turns row : Nat}
    (ht : t.rows - row < turns) : Guarded.cellsFrom t turns row = of (.ok (t.cellsFrom row)) := by
  have hsize := h.size_eq
  induction turns generalizing row with
  | zero => omega
  | succ turns ih =>
    rw [Guarded.cellsFrom, Guarded.next, cellsFrom]
    by_cases hrow : row < t.rows
    · rw [if_pos hrow, if_pos hrow, guarded_cellAt h hw, caught_of, of_ok_bind]
      cases t.cellAt row with
      | ok cell =>
        dsimp only
        rw [sum_eq (by omega), of_ok_bind, pure_eq_of, of_ok_bind]
        dsimp only
        rw [ih (by omega)]
        rfl
      | error fault =>
        have hend : t.cellsFrom t.rows = [] := by
          rw [cellsFrom, if_neg (Nat.lt_irrefl _)]
        dsimp only
        rw [pure_eq_of, of_ok_bind]
        dsimp only
        rw [ih (by omega), hend]
        rfl
    · rw [if_neg hrow, if_neg hrow]
      rfl

theorem guarded_scan (h : t.IsFramed) (hw : t.image.size < UInt64.size) (key : Bytes) :
    Guarded.scan t key = of (t.scan key) := by
  rw [Guarded.scan, guarded_position h hw, scan]
  refine of_bind fun row _ => ?_
  rw [guarded_cellsFrom h hw (by omega)]
  rfl

/-! ### What is handed out -/

/-- The bytes are the part of the record region that begins at `start`. -/
structure LiesAt (t : Table) (start : Nat) (bytes : Bytes) : Prop where
  end_le : start + bytes.length ≤ t.recordsEnd
  eq_bytesOf : bytes = bytesOf t.image start (start + bytes.length)

/-- The key of a cell, and its payload if it has one, lie in the record region where the offset of
the row leads: the key behind its length, the payload behind the key, the stamp and its own
length. -/
def HandsOut (t : Table) (row : Nat) (cell : Cell) : Prop :=
  ∃ start, t.offset row = .ok start ∧ t.LiesAt (start + 4) cell.key ∧
    ∀ stamp data, cell.version = .present stamp data →
      t.LiesAt (start + 4 + cell.key.length + 12) data

theorem liesAt_of_slice {start length : Nat} {bytes : Bytes} (h : t.IsFramed)
    (hs : t.slice start length = .ok bytes) : t.LiesAt start bytes ∧ bytes.length = length := by
  have hrecords := h.recordsEnd_le
  have hsize := h.size_eq
  obtain ⟨hend, rfl⟩ := of_slice_eq_ok hs
  have hlength : (bytesOf t.image start (start + length)).length = length := by
    rw [length_bytesOf (by omega), Nat.add_sub_cancel_left]
  exact ⟨⟨by omega, by rw [hlength]⟩, hlength⟩

theorem liesAt_of_countedAt {start next : Nat} {bytes : Bytes} (h : t.IsFramed)
    (hc : t.countedAt start = .ok (bytes, next)) :
    t.LiesAt (start + 4) bytes ∧ next = start + 4 + bytes.length := by
  simp only [countedAt, bind_eq_ok, pure_eq_ok, Except.ok.injEq, Prod.mk.injEq] at hc
  obtain ⟨field, -, found, hfound, rfl, rfl⟩ := hc
  obtain ⟨hlies, hlength⟩ := liesAt_of_slice h hfound
  exact ⟨hlies, by rw [hlength]⟩

theorem liesAt_of_keyAt {row : Nat} {key : Bytes} (h : t.IsFramed) (hk : t.keyAt row = .ok key) :
    ∃ start, t.offset row = .ok start ∧ t.LiesAt (start + 4) key := by
  simp only [keyAt, bind_eq_ok, pure_eq_ok, Except.ok.injEq] at hk
  obtain ⟨start, hoffset, ⟨found, next⟩, hcounted, rfl⟩ := hk
  exact ⟨start, hoffset, (liesAt_of_countedAt h hcounted).1⟩

theorem handsOut_of_cellAt {row : Nat} {cell : Cell} (h : t.IsFramed)
    (hc : t.cellAt row = .ok cell) : t.HandsOut row cell := by
  simp only [cellAt, bind_eq_ok] at hc
  obtain ⟨start, hoffset, ⟨key, next⟩, hkey, field, -, ⟨removed, stamp⟩, -, hc⟩ := hc
  obtain ⟨hlies, hnext⟩ := liesAt_of_countedAt h hkey
  refine ⟨start, hoffset, ?_⟩
  cases removed with
  | true =>
    simp only [if_true, pure_eq_ok, Except.ok.injEq] at hc
    subst hc
    exact ⟨hlies, by simp⟩
  | false =>
    simp only [Bool.false_eq_true, if_false, bind_eq_ok, pure_eq_ok, Except.ok.injEq] at hc
    obtain ⟨⟨data, stop⟩, hdata, rfl⟩ := hc
    refine ⟨hlies, fun stamp' data' hvalue => ?_⟩
    obtain ⟨rfl, rfl⟩ : stamp = stamp' ∧ data = data' := by simpa using hvalue
    rw [hnext] at hdata
    exact (liesAt_of_countedAt h hdata).1

theorem handsOut_of_get? {key : Bytes} {cell : Cell} (h : t.IsFramed)
    (hg : t.get? key = .ok (some cell)) : ∃ row, t.HandsOut row cell := by
  unfold get? at hg
  split at hg
  · simp at hg
  · rw [bind_eq_ok] at hg
    obtain ⟨row, -, hg⟩ := hg
    split at hg
    · simp at hg
    · rw [bind_eq_ok] at hg
      obtain ⟨found, -, hg⟩ := hg
      split at hg
      · simp at hg
      · simp only [bind_eq_ok, pure_eq_ok, Except.ok.injEq, Option.some.injEq] at hg
        obtain ⟨cell', hcell, rfl⟩ := hg
        exact ⟨row, handsOut_of_cellAt h hcell⟩

/-! ### Where a search ends, and what a cursor yields -/

theorem search_le {key : Bytes} {low high row : Nat} (hle : low ≤ high)
    (hs : t.search key low high = .ok row) : row ≤ high := by
  fun_induction search t key low high with
  | case1 low high hlt middle ih₁ ih₂ =>
    rw [bind_eq_ok] at hs
    obtain ⟨found, -, hs⟩ := hs
    split at hs
    · exact ih₁ (by omega) hs
    · exact Nat.le_trans (ih₂ (by omega) hs) (by omega)
  | case2 low high hlt =>
    rw [Except.ok.injEq] at hs
    omega

/-- A row that was found may be the one behind the last. -/
theorem position_le {key : Bytes} {row : Nat} (hp : t.position key = .ok row) : row ≤ t.rows :=
  search_le (Nat.zero_le _) hp

/-- A cursor yields at most one item for each row. -/
theorem length_cellsFrom_le (row : Nat) : (t.cellsFrom row).length ≤ t.rows - row := by
  fun_induction cellsFrom t row with
  | case1 row hrow cell hcell ih =>
    rw [List.length_cons]
    omega
  | case2 row hrow fault hfault =>
    rw [List.length_singleton]
    omega
  | case3 row hrow => exact Nat.zero_le _

/-- A cursor goes on after cells only. -/
theorem cells_of_dropLast_cellsFrom (row : Nat) :
    ∀ item ∈ (t.cellsFrom row).dropLast, ∃ cell, item = .ok cell := by
  fun_induction cellsFrom t row with
  | case1 row hrow cell hcell ih =>
    intro item hitem
    cases hrest : t.cellsFrom (row + 1) with
    | nil => simp [hrest] at hitem
    | cons next rest =>
      rw [hrest, List.dropLast_cons_cons, List.mem_cons, ← hrest] at hitem
      cases hitem with
      | inl heq => exact ⟨cell, heq⟩
      | inr hin => exact ih item hin
  | case2 row hrow fault hfault => simp
  | case3 row hrow => simp

theorem handsOut_of_cellsFrom {row : Nat} {cell : Cell} (h : t.IsFramed)
    (hc : .ok cell ∈ t.cellsFrom row) : ∃ at', t.HandsOut at' cell := by
  fun_induction cellsFrom t row with
  | case1 row hrow found hfound ih =>
    rw [List.mem_cons] at hc
    cases hc with
    | inl heq => exact ⟨row, handsOut_of_cellAt h (hfound.trans heq.symm)⟩
    | inr hrest => exact ih hrest
  | case2 row hrow fault hfault => simp at hc
  | case3 row hrow => simp at hc

/-! ### Every image -/

/-- No way of reading the table stops dead, and what is handed out lies in the record region. -/
structure ReadsSafely (t : Table) : Prop where
  recordsEnd_le : t.recordsEnd ≤ t.image.size
  guarded_keyAt : ∀ row, Guarded.keyAt t row = of (t.keyAt row)
  guarded_cellAt : ∀ row, Guarded.cellAt t row = of (t.cellAt row)
  guarded_position : ∀ key, Guarded.position t key = of (t.position key)
  guarded_get? : ∀ key, Guarded.get? t key = of (t.get? key)
  guarded_scan : ∀ key, Guarded.scan t key = of (t.scan key)
  position_le : ∀ key row, t.position key = .ok row → row ≤ t.rows
  keyAt_lies : ∀ row key, t.keyAt row = .ok key →
    ∃ start, t.offset row = .ok start ∧ t.LiesAt (start + 4) key
  cellAt_lies : ∀ row cell, t.cellAt row = .ok cell → t.HandsOut row cell
  get?_lies : ∀ key cell, t.get? key = .ok (some cell) → ∃ row, t.HandsOut row cell
  scan_lies : ∀ key items, t.scan key = .ok items →
    ∀ cell, .ok cell ∈ items → ∃ row, t.HandsOut row cell
  length_scan_le : ∀ key items, t.scan key = .ok items → items.length ≤ t.rows
  cells_of_scan : ∀ key items, t.scan key = .ok items →
    ∀ item ∈ items.dropLast, ∃ cell, item = .ok cell

theorem readsSafely_of_isFramed (h : t.IsFramed) (hw : t.image.size * 8 < UInt64.size) :
    t.ReadsSafely := by
  have hword : t.image.size < UInt64.size := by omega
  have hrecords := h.recordsEnd_le
  have hsize := h.size_eq
  have hscan : ∀ {key items}, t.scan key = .ok items → ∃ row, t.cellsFrom row = items := by
    intro key items hs
    simp only [scan, bind_eq_ok, pure_eq_ok, Except.ok.injEq] at hs
    obtain ⟨row, -, hrow⟩ := hs
    exact ⟨row, hrow⟩
  exact {
    recordsEnd_le := by omega
    guarded_keyAt := guarded_keyAt h hword
    guarded_cellAt := guarded_cellAt h hword
    guarded_position := guarded_position h hword
    guarded_get? := guarded_get? h hw
    guarded_scan := guarded_scan h hword
    position_le := fun _ _ => position_le
    keyAt_lies := fun _ _ => liesAt_of_keyAt h
    cellAt_lies := fun _ _ => handsOut_of_cellAt h
    get?_lies := fun _ _ => handsOut_of_get? h
    scan_lies := fun _ _ hs _ hcell => by
      obtain ⟨row, rfl⟩ := hscan hs
      exact handsOut_of_cellsFrom h hcell
    length_scan_le := fun _ _ hs => by
      obtain ⟨row, rfl⟩ := hscan hs
      exact Nat.le_trans (length_cellsFrom_le row) (Nat.sub_le _ _)
    cells_of_scan := fun _ _ hs => by
      obtain ⟨row, rfl⟩ := hscan hs
      exact cells_of_dropLast_cellsFrom row }

end

/-- Whatever the bytes of an image below 2^61, opening it and reading it end with a value or a
fault. -/
theorem parse_readsSafely (hw : image.size * 8 < UInt64.size) :
    Guarded.parse path generation layout image = of (parse path generation layout image) ∧
      ∀ t, parse path generation layout image = .ok t → t.ReadsSafely := by
  refine ⟨guarded_parse (by omega), fun t ht => ?_⟩
  have himage : t.image = image := (parse_eq_ok ht).2.2.1
  exact readsSafely_of_isFramed (isFramed_of_parse ht) (himage ▸ hw)

/-- Two rows, the first of which is said to begin at the last number of a word. -/
def astray : Array UInt8 :=
  #[0, 0, 0, 1, 0x61, 0x80, 0, 0, 0, 0, 0, 0, 1,
    255, 255, 255, 255, 255, 255, 255, 255, 0, 0, 0, 0, 0, 0, 0, 0, 0, 0, 0, 0, 0, 0, 0, 2]

theorem astray_readsSafely : astray.size * 8 < UInt64.size ∧
    ∃ t, parse "table_1.dat" 1 .plain astray = .ok t ∧
      (∃ fault, t.keyAt 0 = .error fault) ∧ t.keyAt 1 = .ok [0x61] ∧ t.ReadsSafely := by
  have hw : astray.size * 8 < UInt64.size := by decide
  obtain ⟨t, ht, hfirst, hsecond⟩ : ∃ t, parse "table_1.dat" 1 .plain astray = .ok t ∧
      (∃ fault, t.keyAt 0 = .error fault) ∧ t.keyAt 1 = .ok [0x61] :=
    ⟨_, rfl, ⟨_, rfl⟩, rfl⟩
  exact ⟨hw, t, ht, hfirst, hsecond, (parse_readsSafely hw).2 t ht⟩

end Table

end TableStore

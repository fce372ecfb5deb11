import TableStore.Proofs.Newest
import TableStore.Proofs.Table.Image

/-! What a table holds. A table holds cells when they ascend, each row is read as its cell, and the
filter knows all their keys; then looking up and scanning answer as the cells do. The search reads
the keys of the rows and nothing else, so where it ends depends on them alone. The table that the
image of a draft is read as holds what the draft holds. -/

namespace TableStore

namespace Table

/-- The rows of a table are the given cells. -/
structure Holds (t : Table) (cells : List Cell) : Prop where
  ascending : Ascending cells
  rows : t.rows = cells.length
  cellAt : ∀ i (h : i < cells.length), t.cellAt i = .ok cells[i]
  mayContain : ∀ cell ∈ cells, t.mayContain cell.key = true

/-! ### Reading records -/

theorem slice_field {t : Table} {front field back : Bytes}
    (h : t.image.toList = front ++ (field ++ back)) {start width : Nat}
    (hs : start = front.length) (hw : width = field.length) (he : start + width ≤ t.recordsEnd) :
    t.slice start width = .ok field := by
  rw [slice, if_pos he, bytesOf_field h hs (hw ▸ rfl)]

theorem countedAt_field {t : Table} {front bytes back : Bytes}
    (h : t.image.toList = front ++ (Record.counted bytes ++ back)) {start : Nat}
    (hs : start = front.length) (hb : bytes.length ≤ Record.maxLength)
    (he : start + 4 + bytes.length ≤ t.recordsEnd) :
    t.countedAt start = .ok (bytes, start + 4 + bytes.length) := by
  have hlt : bytes.length < capacity 4 := Nat.lt_succ_of_le hb
  have hlength : t.slice start 4 = .ok (bigEndian 4 bytes.length) := by
    have h : t.image.toList = front ++ (bigEndian 4 bytes.length ++ (bytes ++ back)) := by
      rw [h, Record.counted, List.append_assoc]
    exact slice_field h hs (by simp) (by omega)
  have hbytes : t.slice (start + 4) bytes.length = .ok bytes := by
    have h : t.image.toList = (front ++ bigEndian 4 bytes.length) ++ (bytes ++ back) := by
      rw [h, Record.counted, List.append_assoc, List.append_assoc]
    exact slice_field h (by simp [hs]) rfl (by omega)
  rw [countedAt, hlength]
  simp only [ok_bind, ofBigEndian_bigEndian hlt, hbytes, pure_eq_ok]

/-- A row whose offset leads to the record of a cell is read as that cell. -/
theorem cellAt_record {t : Table} {row : Nat} {front record back : Bytes} {cell : Cell}
    (ho : t.offset row = .ok front.length) (he : Record.encode cell = .ok record)
    (h : t.image.toList = front ++ (record ++ back))
    (hend : front.length + record.length ≤ t.recordsEnd) : t.cellAt row = .ok cell := by
  obtain ⟨hk, field, rest, hf, hr, rfl⟩ := Record.encode_eq_ok he
  simp only [List.append_assoc] at h
  simp only [List.length_append, Record.length_counted, length_bigEndian] at hend
  have hkey : t.countedAt front.length =
      .ok (cell.key, front.length + 4 + cell.key.length) :=
    countedAt_field h rfl hk (by omega)
  have hfield : t.slice (front.length + 4 + cell.key.length) 8 =
      .ok (bigEndian 8 field.toUInt64.toNat) := by
    have h : t.image.toList = (front ++ Record.counted cell.key) ++
        (bigEndian 8 field.toUInt64.toNat ++ (rest ++ back)) := by
      rw [h, List.append_assoc]
    refine slice_field h ?_ (by simp) (by omega)
    rw [List.length_append, Record.length_counted]
    omega
  have hlt : field.toUInt64.toNat < capacity 8 := field.toUInt64.toNat_lt
  have hstamp :
      (UInt64.ofNat (ofBigEndian (bigEndian 8 field.toUInt64.toNat))).toInt64 = field := by
    rw [ofBigEndian_bigEndian hlt, UInt64.ofNat_toNat]
    rfl
  obtain ⟨key, version⟩ := cell
  dsimp only at *
  rw [cellAt, ho]
  simp only [ok_bind, hkey, hfield, hstamp, bind_pure_comp]
  cases version with
  | absent => simp [Record.stampField] at hf
  | tombstone stamp =>
    rw [Record.readStampField_tombstone hf]
    rfl
  | present stamp data =>
    unfold Record.payload at hr
    by_cases hd : data.length ≤ Record.maxLength
    · simp only [if_pos hd, Except.ok.injEq] at hr
      subst hr
      rw [Record.length_counted] at hend
      have h : t.image.toList =
          (front ++ Record.counted key ++ bigEndian 8 field.toUInt64.toNat) ++
            (Record.counted data ++ back) := by
        rw [h]
        simp only [List.append_assoc]
      have hpayload : t.countedAt (front.length + 4 + key.length + 8) =
          .ok (data, front.length + 4 + key.length + 8 + 4 + data.length) := by
        refine countedAt_field h ?_ hd (by omega)
        simp only [List.length_append, Record.length_counted, length_bigEndian]
        omega
      simp only [Record.readStampField_present hf, ok_bind, Bool.false_eq_true, if_false, hpayload]
      rfl
    · simp [if_neg hd] at hr

end Table

/-- A table whose image is that of a draft, with the index in its place and all records in reach,
has the draft's cells for its rows. -/
theorem Draft.Holds.cellAt {d : Draft} {cells : List Cell} (hd : d.Holds cells)
    (hle : d.image.size ≤ Directory.maxFileSize) {t : Table} (himage : t.image = d.image)
    (hrows : t.rows = d.offsets.size)
    (hindex : t.indexStart = d.records.size + d.filterBytes.length)
    (hend : d.records.size ≤ t.recordsEnd) {i : Nat} (hi : i < cells.length) :
    t.cellAt i = .ok cells[i] := by
  obtain ⟨front, record, back, he, hs, ho⟩ := hd.records i hi
  have hlen := congrArg List.length hs
  simp only [Array.length_toList, List.length_append] at hlen
  have hsize := hd.size
  have hsplit : t.image.toList = front ++ (record ++
      (back ++ (d.filterBytes ++ (d.offsetBytes ++ bigEndian 8 d.offsets.size)))) := by
    rw [himage, d.toList_image, hs]
    simp
  have hoffset : t.offset i = .ok front.length := by
    rw [Table.offset, hrows, if_pos (by omega), himage, hindex,
      numberOf_offset hle ho (by omega)]
  exact Table.cellAt_record hoffset he hsplit (by omega)

/-- The table of a draft holds the draft's cells. -/
theorem Draft.Holds.table {d : Draft} {cells : List Cell} (hd : d.Holds cells) (h : d.Fits)
    (path : String) : (d.table path).Holds cells where
  ascending := hd.ascending
  rows := hd.size
  cellAt := fun _ hi => hd.cellAt h.image_le rfl rfl rfl (Nat.le_refl _) hi
  mayContain := by
    intro cell hc
    rw [Table.mayContain, table_filter]
    cases hf : d.filter with
    | none => rfl
    | some f =>
      rw [Option.all_some]
      exact hd.filter f hf cell hc

/-! ### Searching -/

/-- The keys before a row, and no others, are below the given one. -/
def SplitsAt (keys : List Bytes) (key : Bytes) (row : Nat) : Prop :=
  (∀ other ∈ keys.take row, other < key) ∧ ∀ other ∈ keys.drop row, ¬ other < key

theorem SplitsAt.le_of_not_lt {keys : List Bytes} {key : Bytes} {row i : Nat}
    (h : SplitsAt keys key row) (hi : i < keys.length) (hk : ¬ keys[i] < key) : row ≤ i := by
  refine Nat.le_of_not_lt fun hlt => hk (h.1 _ ?_)
  exact List.mem_take_iff_getElem.mpr ⟨i, by omega, rfl⟩

theorem SplitsAt.lt_of_lt {keys : List Bytes} {key : Bytes} {row i : Nat}
    (h : SplitsAt keys key row) (hi : i < keys.length) (hk : keys[i] < key) : i < row := by
  refine Nat.lt_of_not_le fun hle => h.2 keys[i] ?_ hk
  refine List.mem_drop_iff_getElem.mpr ⟨i - row, by omega, ?_⟩
  congr 1
  omega

theorem SplitsAt.filter {cells : List Cell} {key : Bytes} {row : Nat}
    (h : SplitsAt (cells.map Cell.key) key row) :
    cells.filter (fun c => ¬ c.key < key) = cells.drop row := by
  conv => lhs; rw [← List.take_append_drop row cells]
  rw [List.filter_append, List.filter_eq_nil_iff.mpr, List.filter_eq_self.mpr, List.nil_append]
  · intro cell hc
    simpa using h.2 cell.key (List.map_drop ▸ List.mem_map_of_mem hc)
  · intro cell hc
    simpa using h.1 cell.key (List.map_take ▸ List.mem_map_of_mem hc)

namespace Table

/-- The rows of a table have the given keys, whether or not the rest of a row can be read. -/
structure HasKeys (t : Table) (keys : List Bytes) : Prop where
  ascending : keys.Pairwise (· < ·)
  rows : t.rows = keys.length
  keyAt : ∀ i (h : i < keys.length), t.keyAt i = .ok keys[i]
  mayContain : ∀ key ∈ keys, t.mayContain key = true

namespace HasKeys

variable {t : Table} {keys : List Bytes}

theorem lt_iff (h : t.HasKeys keys) {i j : Nat} (hi : i < keys.length) (hj : j < keys.length) :
    keys[i] < keys[j] ↔ i < j := by
  have hlt : ∀ {i j : Nat} (hi : i < keys.length) (hj : j < keys.length), i < j →
      keys[i] < keys[j] := fun hi hj => List.pairwise_iff_getElem.mp h.ascending _ _ hi hj
  refine ⟨fun hk => Nat.lt_of_not_le fun hge => ?_, hlt hi hj⟩
  rcases Nat.lt_or_eq_of_le hge with hji | rfl
  · exact List.lt_irrefl _ (List.lt_trans hk (hlt hj hi hji))
  · exact List.lt_irrefl _ hk

/-- The search keeps what is left of `low` below the key and what is right of `high` not. -/
theorem search (h : t.HasKeys keys) (key : Bytes) (low high : Nat) (hle : low ≤ high)
    (hh : high ≤ keys.length) (hlow : ∀ other ∈ keys.take low, other < key)
    (hhigh : ∀ other ∈ keys.drop high, ¬ other < key) :
    ∃ row, t.search key low high = .ok row ∧ SplitsAt keys key row := by
  induction hn : high - low using Nat.strongRecOn generalizing low high with
  | ind n ih =>
    rw [Table.search]
    by_cases hlt : low < high
    · have hm : low + (high - low) / 2 < high := by omega
      have hml : low + (high - low) / 2 < keys.length := Nat.lt_of_lt_of_le hm hh
      rw [if_pos hlt]
      simp only [h.keyAt _ hml, ok_bind]
      by_cases hk : keys[low + (high - low) / 2] < key
      · rw [if_pos hk]
        refine ih _ (by omega) _ _ (by omega) hh (fun other ho => ?_) hhigh rfl
        obtain ⟨i, hi, rfl⟩ := List.mem_take_iff_getElem.mp ho
        have hge : ¬ keys[low + (high - low) / 2] < keys[i] := by
          rw [h.lt_iff]
          omega
        exact List.lt_of_le_of_lt (List.not_lt.mp hge) hk
      · rw [if_neg hk]
        refine ih _ (by omega) _ _ (by omega) (by omega) hlow (fun other ho hl => ?_) rfl
        obtain ⟨i, hi, rfl⟩ := List.mem_drop_iff_getElem.mp ho
        have hge : ¬ keys[low + (high - low) / 2 + i] < keys[low + (high - low) / 2] := by
          rw [h.lt_iff]
          omega
        exact hk (List.lt_of_le_of_lt (List.not_lt.mp hge) hl)
    · have he : low = high := by omega
      rw [if_neg hlt]
      exact ⟨low, rfl, hlow, he ▸ hhigh⟩

theorem position (h : t.HasKeys keys) (key : Bytes) :
    ∃ row, t.position key = .ok row ∧ SplitsAt keys key row := by
  rw [Table.position, h.rows]
  exact h.search key 0 keys.length (Nat.zero_le _) (Nat.le_refl _) (by simp) (by simp)

/-- A scan starts at the first row whose key is not before the given one. -/
theorem scan (h : t.HasKeys keys) (key : Bytes) :
    ∃ row, t.scan key = .ok (t.cellsFrom row) ∧ SplitsAt keys key row := by
  obtain ⟨row, hp, hs⟩ := h.position key
  exact ⟨row, by rw [Table.scan, hp]; rfl, hs⟩

/-- Looking up the key of a row reads that row, and it alone. -/
theorem get?_getElem (h : t.HasKeys keys) {row : Nat} (hr : row < keys.length) :
    t.get? keys[row] = some <$> t.cellAt row := by
  obtain ⟨found, hp, hs⟩ := h.position keys[row]
  have hle : found ≤ row := hs.le_of_not_lt hr (List.lt_irrefl _)
  have hge : ¬ found < row := by
    intro hlt
    have hbelow := (h.lt_iff (Nat.lt_trans hlt hr) hr).mpr hlt
    exact Nat.lt_irrefl _ (hs.lt_of_lt _ hbelow)
  have he : found = row := by omega
  subst he
  unfold Table.get?
  simp only [h.mayContain _ (List.getElem_mem hr), not_true_eq_false, if_false, hp, ok_bind,
    h.rows, if_neg (Nat.not_le_of_lt hr), h.keyAt _ hr, ne_eq]
  rfl

/-- Looking up a key that no row has finds nothing. -/
theorem get?_of_not_mem (h : t.HasKeys keys) {key : Bytes} (hk : key ∉ keys) :
    t.get? key = .ok none := by
  obtain ⟨row, hp, hs⟩ := h.position key
  unfold Table.get?
  by_cases hmay : t.mayContain key = true
  · simp only [hmay, not_true_eq_false, if_false, hp, ok_bind, h.rows]
    by_cases hr : keys.length ≤ row
    · rw [if_pos hr]
      rfl
    · have hlt : row < keys.length := Nat.lt_of_not_le hr
      have hne : keys[row] ≠ key := fun he => hk (he ▸ List.getElem_mem hlt)
      rw [if_neg hr, h.keyAt row hlt, ok_bind, if_pos hne]
      rfl
  · rw [if_pos hmay]
    rfl

end HasKeys

variable {t : Table} {cells : List Cell}

theorem keyAt_of_cellAt {row : Nat} {cell : Cell} (h : t.cellAt row = .ok cell) :
    t.keyAt row = .ok cell.key := by
  unfold cellAt at h
  simp only [bind_eq_ok] at h
  obtain ⟨offset, ho, ⟨key, next⟩, hk, bytes, -, ⟨removed, stamp⟩, -, h⟩ := h
  have hkey : cell.key = key := by
    split at h
    · rw [pure_eq_ok, Except.ok.injEq] at h
      rw [← h]
    · obtain ⟨⟨data, rest⟩, -, h⟩ := bind_eq_ok.mp h
      rw [pure_eq_ok, Except.ok.injEq] at h
      rw [← h]
  rw [keyAt, ho]
  simp only [ok_bind, hk, pure_eq_ok, hkey]

theorem Holds.hasKeys (h : t.Holds cells) : t.HasKeys (cells.map Cell.key) where
  ascending := List.pairwise_map.mpr h.ascending
  rows := by rw [h.rows, List.length_map]
  keyAt := by
    intro i hi
    rw [List.length_map] at hi
    rw [List.getElem_map]
    exact keyAt_of_cellAt (h.cellAt i hi)
  mayContain := by
    intro key hk
    obtain ⟨cell, hc, rfl⟩ := List.mem_map.mp hk
    exact h.mayContain cell hc

/-! ### Looking up and scanning -/

/-- Looking a key up finds the cell that has it. -/
theorem Holds.get? (h : t.Holds cells) (key : Bytes) :
    t.get? key = .ok (cells.find? fun c => c.key == key) := by
  by_cases hk : key ∈ cells.map Cell.key
  · obtain ⟨cell, hc, rfl⟩ := List.mem_map.mp hk
    obtain ⟨row, hr, rfl⟩ := List.mem_iff_getElem.mp hc
    have hkey : row < (cells.map Cell.key).length := by rwa [List.length_map]
    have hget := h.hasKeys.get?_getElem hkey
    rw [List.getElem_map, h.cellAt row hr] at hget
    rw [hget, h.ascending.find?_of_mem hc]
    rfl
  · have hnone : cells.find? (fun c => c.key == key) = none := by
      rw [List.find?_eq_none]
      intro cell hc he
      exact hk (beq_iff_eq.mp he ▸ List.mem_map_of_mem hc)
    rw [h.hasKeys.get?_of_not_mem hk, hnone]

theorem cellsFrom_of_cellAt (hrows : t.rows = cells.length)
    (hcell : ∀ i (h : i < cells.length), t.cellAt i = .ok cells[i]) (row : Nat) :
    t.cellsFrom row = (cells.drop row).map .ok := by
  induction hn : cells.length - row generalizing row with
  | zero =>
    rw [Table.cellsFrom, hrows, if_neg (by omega), List.drop_of_length_le (by omega)]
    rfl
  | succ n ih =>
    have hr : row < cells.length := by omega
    rw [Table.cellsFrom, hrows, if_pos hr, hcell row hr, List.drop_eq_getElem_cons hr]
    simp only [List.map_cons]
    rw [ih (row + 1) (by omega)]

theorem Holds.cellsFrom (h : t.Holds cells) (row : Nat) :
    t.cellsFrom row = (cells.drop row).map .ok := cellsFrom_of_cellAt h.rows h.cellAt row

/-- A scan yields the cells from a key on. -/
theorem Holds.scan (h : t.Holds cells) (key : Bytes) :
    t.scan key = .ok ((cells.filter fun c => ¬ c.key < key).map .ok) := by
  obtain ⟨row, hscan, hs⟩ := h.hasKeys.scan key
  rw [hscan, hs.filter, h.cellsFrom row]

/-- No key is before the empty one, so a scan from there yields all cells. -/
theorem Holds.scan_all (h : t.Holds cells) : t.scan [] = .ok (cells.map .ok) := by
  have hscan := h.scan []
  rwa [List.filter_eq_self.mpr (by simp)] at hscan

theorem cellAt_of_cellsFrom {row : Nat} (h : t.cellsFrom row = cells.map .ok) :
    ∀ i, row ≤ i → i < t.rows → ∃ cell, t.cellAt i = .ok cell := by
  fun_induction cellsFrom t row generalizing cells with
  | case1 row hrow cell hcell ih =>
    intro i hle hi
    cases cells with
    | nil => simp at h
    | cons first rest =>
      rw [List.map_cons, List.cons.injEq] at h
      rcases Nat.eq_or_lt_of_le hle with rfl | hlt
      · exact ⟨cell, hcell⟩
      · exact ih h.2 i hlt hi
  | case2 row hrow fault hfault => cases cells <;> simp at h
  | case3 row hrow => exact fun i hle hi => absurd (Nat.lt_of_le_of_lt hle hi) hrow

theorem search_nil {high : Nat} (h : ∀ i < high, ∃ key, t.keyAt i = .ok key) {low : Nat}
    (hle : low ≤ high) : t.search [] low high = .ok low := by
  induction high using Nat.strongRecOn with
  | ind high ih =>
    rw [search]
    by_cases hlt : low < high
    · have hmiddle : low + (high - low) / 2 < high := by omega
      obtain ⟨key, hkey⟩ := h _ hmiddle
      rw [if_pos hlt]
      simp only [hkey, ok_bind, if_neg (List.not_lt_nil key)]
      exact ih _ hmiddle (fun i hi => h i (Nat.lt_trans hi hmiddle)) (Nat.le_add_right _ _)
    · rw [if_neg hlt]

/-- Whatever a table's filter says, a scan from the empty key yields all rows that can be read. -/
theorem scan_nil (h : t.cellsFrom 0 = cells.map .ok) : t.scan [] = .ok (cells.map .ok) := by
  have hkeys : ∀ i < t.rows, ∃ key, t.keyAt i = .ok key := by
    intro i hi
    obtain ⟨cell, hcell⟩ := cellAt_of_cellsFrom h i (Nat.zero_le i) hi
    exact ⟨cell.key, keyAt_of_cellAt hcell⟩
  rw [Table.scan, position, search_nil hkeys (Nat.zero_le _), ok_bind, h]
  rfl

end Table

/-- Whatever the size of its filter, the image of a draft that opens at all has the draft's cells
for its rows. -/
theorem Draft.Holds.cellsFrom_of_parse {d : Draft} {cells : List Cell} (hd : d.Holds cells)
    (hp : d.layout = .plain ↔ d.filter = none) (hle : d.image.size ≤ Directory.maxFileSize)
    {path : String} {generation : UInt64} {t : Table}
    (h : Table.parse path generation d.layout d.image = .ok t) :
    t.cellsFrom 0 = cells.map .ok := by
  have hsize := d.size_image
  have hindex : d.image.size - 8 - d.offsets.size * 8 =
      d.records.size + d.filterBytes.length := by omega
  rw [Table.parse] at h
  simp only [numberOf_rows hle, hindex] at h
  rw [if_neg (by omega), if_neg (by omega)] at h
  obtain ⟨⟨recordsEnd, filter⟩, hregions, h⟩ := bind_eq_ok.mp h
  have hend := le_of_regions hp hregions
  dsimp only at h
  split at h
  · simp at h
  · cases h
    exact Table.cellsFrom_of_cellAt hd.size (fun i hi => hd.cellAt hle rfl rfl rfl hend hi) 0

/-! ### The cells of a table -/

namespace Table

/-- The cells of a table whose rows can all be read. -/
def cells (t : Table) : List Cell := (t.cellsFrom 0).filterMap Except.toOption

/-- All rows can be read, ascend, and are known to the filter. -/
def IsSound (t : Table) : Prop := t.Holds t.cells

theorem Holds.cells_eq {t : Table} {cells : List Cell} (h : t.Holds cells) : t.cells = cells := by
  have hall := h.cellsFrom 0
  rw [List.drop_zero] at hall
  rw [Table.cells, hall, List.filterMap_map]
  exact List.filterMap_some

theorem Holds.isSound {t : Table} {cells : List Cell} (h : t.Holds cells) : t.IsSound := by
  rw [IsSound, h.cells_eq]
  exact h

end Table

end TableStore

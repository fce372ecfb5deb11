import Mathlib.Algebra.GroupWithZero.Nat
import TableStore.Proofs.Table.Image

/-! Which cells a draft takes. A cell is storable when its strings are no longer than a length field
tells and its stamp has a field of its own kind; exactly these have a record. A draft takes any
ascending list of storable cells whole, and how long its image becomes is known beforehand. -/

namespace TableStore

/-- A version that a record can hold. -/
def Version.IsStorable : Version → Prop
  | .present stamp data => 0 ≤ stamp ∧ data.length ≤ Record.maxLength
  | .tombstone stamp => 0 < stamp
  | .absent => False

/-- A cell that has a record. -/
structure Cell.IsStorable (cell : Cell) : Prop where
  key : cell.key.length ≤ Record.maxLength
  version : cell.version.IsStorable

instance (v : Version) : Decidable v.IsStorable :=
  match v with
  | .present stamp data =>
    inferInstanceAs (Decidable (0 ≤ stamp ∧ data.length ≤ Record.maxLength))
  | .tombstone stamp => inferInstanceAs (Decidable (0 < stamp))
  | .absent => inferInstanceAs (Decidable False)

instance (cell : Cell) : Decidable cell.IsStorable :=
  decidable_of_iff (cell.key.length ≤ Record.maxLength ∧ cell.version.IsStorable)
    ⟨fun h => ⟨h.1, h.2⟩, fun h => ⟨h.key, h.version⟩⟩

namespace Record

/-- The number of bytes that the payload part of a record takes. -/
def payloadSize : Version → Nat
  | .present _ data => 4 + data.length
  | _ => 0

/-- The number of bytes that the record of a cell takes. -/
def size (cell : Cell) : Nat := 4 + cell.key.length + 8 + payloadSize cell.version

theorem exists_stampField {v : Version} (h : v.IsStorable) : ∃ field, stampField v = .ok field := by
  cases v with
  | present stamp data => exact ⟨stamp, if_pos h.1⟩
  | tombstone stamp => exact ⟨-stamp, if_pos h⟩
  | absent => exact h.elim

theorem exists_payload {v : Version} (h : v.IsStorable) :
    ∃ rest, payload v = .ok rest ∧ rest.length = payloadSize v := by
  cases v with
  | present stamp data => exact ⟨counted data, if_pos h.2, length_counted data⟩
  | tombstone stamp => exact ⟨[], rfl, rfl⟩
  | absent => exact h.elim

/-- A storable cell has a record of the stated size. -/
theorem exists_encode {cell : Cell} (h : cell.IsStorable) :
    ∃ record, encode cell = .ok record ∧ record.length = size cell := by
  obtain ⟨field, hf⟩ := exists_stampField h.version
  obtain ⟨rest, hr, hlength⟩ := exists_payload h.version
  refine ⟨counted cell.key ++ bigEndian 8 field.toUInt64.toNat ++ rest, ?_, ?_⟩
  · unfold encode
    simp only [if_neg (Nat.not_lt.mpr h.key), hf, hr, ok_bind, pure_eq_ok]
  · simp only [List.length_append, length_counted, length_bigEndian, hlength, size]

/-- A cell that has a record is storable. -/
theorem isStorable_of_encode {cell : Cell} {record : Bytes} (h : encode cell = .ok record) :
    cell.IsStorable := by
  obtain ⟨hk, field, rest, hf, hr, -⟩ := encode_eq_ok h
  refine ⟨hk, ?_⟩
  cases hv : cell.version with
  | present stamp data =>
    rw [hv] at hf hr
    simp only [stampField] at hf
    simp only [payload] at hr
    split at hf
    · split at hr
      · exact ⟨by assumption, by assumption⟩
      · simp at hr
    · simp at hf
  | tombstone stamp =>
    rw [hv] at hf
    simp only [stampField] at hf
    split at hf
    · assumption
    · simp at hf
  | absent =>
    rw [hv] at hf
    simp [stampField] at hf

end Record

namespace Draft

/-- A cell that has a record and stands behind all keys so far is taken. -/
theorem add_of_encode {d : Draft} {cell : Cell} {record : Bytes}
    (hl : ∀ last ∈ d.lastKey, last < cell.key) (hr : Record.encode cell = .ok record) :
    d.add cell = .ok { d with
      filter := d.filter.map (·.insert cell.key)
      records := d.records ++ record
      offsets := d.offsets.push d.records.size
      lastKey := some cell.key } := by
  unfold add
  cases h : d.lastKey with
  | none => simp only [hr, ok_bind, pure_eq_ok]
  | some last =>
    have hlt : last < cell.key := hl last (by simp [h])
    simp only [hlt, hr, not_true_eq_false, if_false, ok_bind, pure_eq_ok]

/-- A storable cell behind all keys so far is taken. -/
theorem exists_add {d : Draft} {cell : Cell} (hl : ∀ last ∈ d.lastKey, last < cell.key)
    (hs : cell.IsStorable) :
    ∃ d', d.add cell = .ok d' ∧ d'.lastKey = some cell.key ∧
      d'.filter = d.filter.map (·.insert cell.key) ∧
      d'.records.size = d.records.size + Record.size cell := by
  obtain ⟨record, hr, hlength⟩ := Record.exists_encode hs
  refine ⟨_, add_of_encode hl hr, rfl, rfl, ?_⟩
  rw [← Array.length_toList, Array.toList_appendList, List.length_append, hlength,
    Array.length_toList]

/-- An ascending list of storable cells behind all keys so far is taken whole. -/
theorem exists_addAll {d : Draft} {cells : List Cell} (ha : Ascending cells)
    (hl : ∀ last ∈ d.lastKey, ∀ cell ∈ cells, last < cell.key)
    (hs : ∀ cell ∈ cells, cell.IsStorable) :
    ∃ d', d.addAll (cells.map .ok) = .ok d' ∧
      d'.filter = d.filter.map (·.insertAll (cells.map Cell.key)) ∧
      d'.records.size = d.records.size + (cells.map Record.size).sum := by
  induction cells generalizing d with
  | nil => exact ⟨d, rfl, by cases d.filter <;> rfl, rfl⟩
  | cons cell cells ih =>
    obtain ⟨hfirst, hrest⟩ := List.pairwise_cons.mp ha
    obtain ⟨next, hadd, hkey, hfilter, hsize⟩ := exists_add
      (fun last hm => hl last hm cell List.mem_cons_self) (hs cell List.mem_cons_self)
    obtain ⟨d', hall, hfilter', hsize'⟩ := ih (d := next) hrest
      (fun last hm other ho => by
        rw [hkey, Option.mem_def, Option.some.injEq] at hm
        exact hm ▸ hfirst other ho)
      fun other ho => hs other (List.mem_cons_of_mem _ ho)
    refine ⟨d', ?_, ?_, ?_⟩
    · simp only [List.map_cons, addAll, ok_bind, hadd, hall]
    · rw [hfilter', hfilter, Option.map_map]
      rfl
    · rw [hsize', hsize, List.map_cons, List.sum_cons, Nat.add_assoc]

/-- The number of bytes between the records and the offsets. -/
def filterSize : Layout → (filterBits : Nat) → Nat
  | .plain, _ => 0
  | .filtered, filterBits => (Filter.empty filterBits).words.size * 8 + 4

/-- The size of the image of a draft that was filled with cells. -/
def imageSize (layout : Layout) (filterBits : Nat) (cells : List Cell) : Nat :=
  (cells.map Record.size).sum + filterSize layout filterBits + cells.length * 8 + 8

/-- The filter of a draft that was filled with cells. -/
def filterOf (layout : Layout) (filterBits : Nat) (cells : List Cell) : Option Filter :=
  match layout with
  | .plain => none
  | .filtered => some ((Filter.empty filterBits).insertAll (cells.map Cell.key))

theorem length_filterBytes {generation : UInt64} {layout : Layout} {filterBits : Nat} {d : Draft}
    (h : (empty generation layout filterBits).SameForm d) :
    d.filterBytes.length = filterSize layout filterBits := by
  have hf := h.filter
  cases layout with
  | plain =>
    have hnone : d.filter = none := by simpa [empty] using hf
    simp [filterBytes, hnone, filterSize]
  | filtered =>
    obtain ⟨f, hsome, hsize⟩ := Option.map_eq_some_iff.mp (hf.trans rfl)
    simp [filterBytes, hsome, filterSize, Filter.encode, Filter.length_wordBytes, hsize]

/-- An empty draft takes ascending storable cells: it holds them then, with all their keys in its
filter, and its image has the stated size. -/
theorem exists_filled (generation : UInt64) (layout : Layout) (filterBits : Nat)
    {cells : List Cell} (ha : Ascending cells) (hs : ∀ cell ∈ cells, cell.IsStorable) :
    ∃ d, (empty generation layout filterBits).addAll (cells.map .ok) = .ok d ∧ d.Holds cells ∧
      (empty generation layout filterBits).SameForm d ∧
      d.filter = filterOf layout filterBits cells ∧
      d.image.size = imageSize layout filterBits cells := by
  obtain ⟨d, hall, hfilter, hsize⟩ :=
    exists_addAll (d := empty generation layout filterBits) ha (by simp [empty]) hs
  have hempty : (empty generation layout filterBits).Holds [] := holds_nil rfl rfl
  obtain ⟨more, hmore, hholds, hform⟩ := hempty.addAll hall
  obtain rfl : cells = more := (List.map_inj_right fun _ _ => Except.ok.inj).mp hmore
  refine ⟨d, hall, hholds, hform, ?_, ?_⟩
  · rw [hfilter]
    cases layout <;> rfl
  · have hrecords : d.records.size = (cells.map Record.size).sum := by
      simpa [empty] using hsize
    rw [size_image, hrecords, length_filterBytes hform, hholds.size]
    rfl

/-- An empty draft takes these lists of cells and no others. -/
theorem exists_addAll_iff (generation : UInt64) (layout : Layout) (filterBits : Nat)
    {cells : List Cell} :
    (∃ d, (empty generation layout filterBits).addAll (cells.map .ok) = .ok d) ↔
      Ascending cells ∧ ∀ cell ∈ cells, cell.IsStorable := by
  constructor
  · rintro ⟨d, h⟩
    obtain ⟨-, hholds⟩ := addAll_empty_eq_ok h
    refine ⟨hholds.ascending, fun cell hm => ?_⟩
    obtain ⟨i, hi, rfl⟩ := List.mem_iff_getElem.mp hm
    obtain ⟨front, record, back, he, -, -⟩ := hholds.records i hi
    exact Record.isStorable_of_encode he
  · rintro ⟨ha, hs⟩
    obtain ⟨d, h, -⟩ := exists_filled generation layout filterBits ha hs
    exact ⟨d, h⟩

end Draft

end TableStore

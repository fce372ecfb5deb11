import TableStore.Disk.Directory
import TableStore.Proofs.Outcome
import TableStore.Table.Basic
import TableStore.Table.Draft

/-! The image of a table is read as it was written. Fields are found by what stands before them:
the records by their offsets, and from the end of the image back the number of rows, the offsets
and the filter. Offsets fit their eight bytes because no file is longer than a position tells; the
number of filter words must fit four. -/

namespace TableStore

/-! ### Fields of an image -/

/-- A number that does not fit its bytes is told modulo how many they tell apart. -/
theorem ofBigEndian_bigEndian_mod (width n : Nat) :
    ofBigEndian (bigEndian width n) = n % capacity width := by
  induction width generalizing n with
  | zero =>
    rw [capacity, Nat.mod_one]
    rfl
  | succ width ih =>
    rw [bigEndian, ofBigEndian_append_singleton, ih, UInt8.toNat_ofNat', capacity,
      Nat.mul_comm (capacity width), Nat.mod_mul]
    omega

namespace Table

variable {image : Array UInt8} {front field back : Bytes}

theorem bytesOf_eq (image : Array UInt8) (start stop : Nat) :
    bytesOf image start stop = (image.toList.drop start).take (stop - start) := by
  rw [bytesOf, Array.toList_extract, List.extract_eq_take_drop]

/-- The bytes behind `front` are the field that stands there. -/
theorem bytesOf_field (h : image.toList = front ++ (field ++ back)) {start stop : Nat}
    (hs : start = front.length) (he : stop = start + field.length) :
    bytesOf image start stop = field := by
  rw [bytesOf_eq, h, hs, he, hs, List.drop_left, Nat.add_sub_cancel_left, List.take_left]

theorem numberOf_field {width n : Nat}
    (h : image.toList = front ++ (bigEndian width n ++ back)) {start : Nat}
    (hs : start = front.length) (hn : n < capacity width) :
    numberOf image start width = n := by
  rw [numberOf, bytesOf_field h hs (by simp), ofBigEndian_bigEndian hn]

end Table

/-! ### Filters -/

namespace Filter

theorem size_insert (f : Filter) (key : Bytes) : (f.insert key).words.size = f.words.size := by
  have := f.bits_insert key
  unfold bits at this
  omega

theorem size_union {f g h : Filter} (hu : f.union g = .ok h) : h.words.size = f.words.size := by
  unfold union at hu
  split at hu
  · rename_i hs
    rw [← Except.ok.inj hu]
    simp [hs]
  · simp at hu

theorem readWords_flatMap (words : List UInt64) :
    readWords words.length (words.flatMap fun w => bigEndian 8 w.toNat) = words := by
  induction words with
  | nil => rfl
  | cons w words ih =>
    have hlen : (bigEndian 8 w.toNat).length = 8 := length_bigEndian 8 _
    have hlt : w.toNat < capacity 8 := w.toNat_lt
    rw [List.length_cons, readWords, List.flatMap_cons, List.take_left' hlen,
      List.drop_left' hlen, ih, ofBigEndian_bigEndian hlt, UInt64.ofNat_toNat]

theorem length_flatMap_words (words : List UInt64) :
    (words.flatMap fun w => bigEndian 8 w.toNat).length = words.length * 8 := by
  rw [List.length_flatMap]
  simp only [length_bigEndian, List.map_const', List.sum_replicate_nat]

theorem length_wordBytes (f : Filter) : f.wordBytes.length = f.words.size * 8 := by
  rw [wordBytes, length_flatMap_words, Array.length_toList]

theorem decodeWords_flatMap (words : List UInt64) :
    decodeWords (words.flatMap fun w => bigEndian 8 w.toNat) words.length =
      ofWords words.toArray := by
  rw [decodeWords, if_pos (length_flatMap_words words), readWords_flatMap]

theorem decodeWords_wordBytes (f : Filter) : decodeWords f.wordBytes f.words.size = .ok f := by
  rw [wordBytes, ← Array.length_toList, decodeWords_flatMap, Array.toArray_toList]
  exact dif_pos f.size_pos

/-- The last words of a filter, as many as four bytes tell of them. -/
def toldWords (f : Filter) : List UInt64 :=
  f.words.toList.drop (f.words.size - f.words.size % capacity 4)

theorem length_toldWords (f : Filter) : f.toldWords.length = f.words.size % capacity 4 := by
  have hle := Nat.mod_le f.words.size (capacity 4)
  rw [toldWords, List.length_drop, Array.length_toList]
  omega

/-- Four bytes tell of all words if they can count them. -/
theorem ofWords_toldWords {f : Filter} (h : f.words.size < capacity 4) :
    ofWords f.toldWords.toArray = .ok f := by
  rw [toldWords, Nat.mod_eq_of_lt h, Nat.sub_self, List.drop_zero, Array.toArray_toList]
  exact dif_pos f.size_pos

end Filter

/-! ### Records -/

namespace Record

theorem readStampField_present {stamp : Stamp} {data : Bytes} {field : Int64}
    (h : stampField (.present stamp data) = .ok field) :
    readStampField field = .ok (false, stamp) := by
  simp only [stampField] at h
  split at h
  · rename_i hs
    rw [← Except.ok.inj h, readStampField, if_neg, if_neg (Int64.not_lt.mpr hs)]
    rintro rfl
    exact absurd hs (by decide)
  · simp at h

theorem readStampField_tombstone {stamp : Stamp} {field : Int64}
    (h : stampField (.tombstone stamp) = .ok field) :
    readStampField field = .ok (true, stamp) := by
  simp only [stampField] at h
  split at h
  · rename_i hs
    have hpos : (0 : Int64).toInt < stamp.toInt := Int64.lt_iff_toInt_lt.mp hs
    have hzero : (0 : Int64).toInt = 0 := rfl
    have hmax := stamp.toInt_lt
    have hneg : (-stamp).toInt = -stamp.toInt := by
      rw [Int64.toInt_neg, Int.bmod_eq_of_le (by omega) (by omega)]
    rw [← Except.ok.inj h, readStampField, if_neg, if_pos, Int64.neg_neg]
    · rw [Int64.lt_iff_toInt_lt, hneg]
      omega
    · intro he
      have hmin : (-stamp).toInt = -9223372036854775808 := congrArg Int64.toInt he
      omega
  · simp at h

theorem length_counted (bytes : Bytes) : (counted bytes).length = 4 + bytes.length := by
  rw [counted, List.length_append, length_bigEndian]

/-- What the record of a cell is made of. -/
theorem encode_eq_ok {cell : Cell} {record : Bytes} (h : encode cell = .ok record) :
    cell.key.length ≤ maxLength ∧ ∃ field rest, stampField cell.version = .ok field ∧
      payload cell.version = .ok rest ∧
      record = counted cell.key ++ (bigEndian 8 field.toUInt64.toNat ++ rest) := by
  unfold encode at h
  by_cases hk : maxLength < cell.key.length
  · simp [hk] at h
  · simp only [if_neg hk, bind_eq_ok, bind_pure_comp, map_eq_ok] at h
    obtain ⟨field, hf, rest, hr, rfl⟩ := h
    exact ⟨Nat.not_lt.mp hk, field, rest, hf, hr, List.append_assoc _ _ _⟩

end Record

/-! ### Drafts -/

namespace Draft

/-- A draft holds the given cells: their records stand one after another at the offsets, and the
filter, if there is one, knows their keys. -/
structure Holds (d : Draft) (cells : List Cell) : Prop where
  ascending : Ascending cells
  lastKey : d.lastKey = cells.getLast?.map Cell.key
  size : d.offsets.size = cells.length
  records : ∀ i (h : i < cells.length), ∃ front record back,
    Record.encode cells[i] = .ok record ∧ d.records.toList = front ++ (record ++ back) ∧
      d.offsets[i]? = some front.length
  filter : ∀ f ∈ d.filter, ∀ cell ∈ cells, f.mayContain cell.key = true

/-- The parts of a draft that taking cells never changes. -/
structure SameForm (d d' : Draft) : Prop where
  generation : d'.generation = d.generation
  layout : d'.layout = d.layout
  filter : d'.filter.map (·.words.size) = d.filter.map (·.words.size)

theorem SameForm.refl (d : Draft) : d.SameForm d := ⟨rfl, rfl, rfl⟩

theorem SameForm.trans {a b c : Draft} (hab : a.SameForm b) (hbc : b.SameForm c) : a.SameForm c :=
  ⟨hbc.generation.trans hab.generation, hbc.layout.trans hab.layout, hbc.filter.trans hab.filter⟩

theorem holds_nil {d : Draft} (hl : d.lastKey = none) (ho : d.offsets = #[]) : d.Holds [] where
  ascending := List.Pairwise.nil
  lastKey := hl
  size := by simp [ho]
  records := fun i h => absurd h (Nat.not_lt_zero i)
  filter := by simp

/-- Whether a key may follow the greatest key so far. -/
theorem ascending_concat {cells : List Cell} (h : Ascending cells) {cell : Cell}
    (hl : ∀ last ∈ cells.getLast?, last.key < cell.key) : Ascending (cells ++ [cell]) := by
  refine List.pairwise_append.mpr ⟨h, List.pairwise_singleton _ _, fun c hc other ho => ?_⟩
  rw [List.mem_singleton.mp ho]
  obtain ⟨front, hfront⟩ := List.mem_iff_append.mp hc
  obtain ⟨back, rfl⟩ := hfront
  rcases List.eq_nil_or_concat back with rfl | ⟨init, last, rfl⟩
  · exact hl c (by simp)
  · have hsplit : front ++ c :: init.concat last = (front ++ c :: init) ++ [last] := by simp
    have hlast : last.key < cell.key := hl last (by rw [hsplit, List.getLast?_concat]; rfl)
    have hc : c.key < last.key := by
      have := (List.pairwise_append.mp h).2.1
      exact List.rel_of_pairwise_cons this (by simp)
    exact List.lt_trans hc hlast

/-- What taking a cell does. -/
theorem add_eq_ok {d d' : Draft} {cell : Cell} (h : d.add cell = .ok d') :
    (∀ last ∈ d.lastKey, last < cell.key) ∧ ∃ record, Record.encode cell = .ok record ∧
      d' = { d with
        filter := d.filter.map (·.insert cell.key)
        records := d.records ++ record
        offsets := d.offsets.push d.records.size
        lastKey := some cell.key } := by
  unfold add at h
  cases hl : d.lastKey with
  | none =>
    simp only [hl, bind_pure_comp, map_eq_ok] at h
    obtain ⟨record, hr, rfl⟩ := h
    exact ⟨by simp, record, hr, rfl⟩
  | some last =>
    by_cases hk : last < cell.key
    · simp only [hl, not_true_eq_false, hk, if_false, bind_pure_comp, map_eq_ok] at h
      obtain ⟨record, hr, rfl⟩ := h
      exact ⟨by simpa using hk, record, hr, rfl⟩
    · simp [hl, hk] at h

theorem SameForm.add {d d' : Draft} {cell : Cell} (h : d.add cell = .ok d') : d.SameForm d' := by
  obtain ⟨-, record, -, rfl⟩ := add_eq_ok h
  refine ⟨rfl, rfl, ?_⟩
  cases hf : d.filter with
  | none => rfl
  | some f => simp [f.size_insert]

theorem Holds.add {d d' : Draft} {cells : List Cell} (hd : d.Holds cells) {cell : Cell}
    (h : d.add cell = .ok d') : d'.Holds (cells ++ [cell]) := by
  obtain ⟨hlast, record, hr, rfl⟩ := add_eq_ok h
  rw [hd.lastKey] at hlast
  have hsize := hd.size
  refine ⟨?_, by simp, by simp [hd.size], fun i hi => ?_, ?_⟩
  · exact ascending_concat hd.ascending fun last hl => hlast _ (Option.mem_map_of_mem Cell.key hl)
  · rw [List.length_append, List.length_singleton] at hi
    rcases Nat.lt_or_eq_of_le (Nat.le_of_lt_succ hi) with hlt | rfl
    · obtain ⟨front, old, back, he, hs, ho⟩ := hd.records i hlt
      refine ⟨front, old, back ++ record, ?_, ?_, ?_⟩
      · rw [List.getElem_append_left hlt, he]
      · simp [hs]
      · rw [Array.getElem?_push_lt (by omega)]
        rwa [Array.getElem?_eq_getElem (by omega)] at ho
    · refine ⟨d.records.toList, record, [], ?_, by simp, ?_⟩
      · simpa using hr
      · rw [← hd.size]
        simp
  · intro f hf c hc
    obtain ⟨old, ho, rfl⟩ := Option.map_eq_some_iff.mp hf
    rw [List.mem_append, List.mem_singleton] at hc
    rcases hc with hc | rfl
    · exact old.mayContain_insert (hd.filter old ho c hc) _
    · exact old.mayContain_insert_self _

/-- Taking cells one after another succeeds only without faults among them. -/
theorem Holds.addAll {d d' : Draft} {cells : List Cell} (hd : d.Holds cells)
    {items : List (Except Fault Cell)} (h : d.addAll items = .ok d') :
    ∃ more, items = more.map .ok ∧ d'.Holds (cells ++ more) ∧ d.SameForm d' := by
  induction items generalizing d cells with
  | nil =>
    rw [Draft.addAll, Except.ok.injEq] at h
    exact ⟨[], rfl, by simpa [← h] using hd, h ▸ SameForm.refl d⟩
  | cons item items ih =>
    simp only [Draft.addAll, bind_eq_ok] at h
    obtain ⟨cell, rfl, next, hn, h⟩ := h
    obtain ⟨more, rfl, hm, hf⟩ := ih (hd.add hn) h
    exact ⟨cell :: more, rfl, by simpa using hm, (SameForm.add hn).trans hf⟩

theorem holds_empty (generation : UInt64) (layout : Layout) (filterBits : Nat) :
    (empty generation layout filterBits).Holds [] := holds_nil rfl rfl

/-- A draft that has taken cells one after another holds them. -/
theorem addAll_empty_eq_ok {generation : UInt64} {layout : Layout} {filterBits : Nat}
    {cells : List Cell} {d : Draft}
    (h : (empty generation layout filterBits).addAll (cells.map .ok) = .ok d) :
    (empty generation layout filterBits).SameForm d ∧ d.Holds cells := by
  obtain ⟨more, hm, hholds, hform⟩ := (holds_empty generation layout filterBits).addAll h
  have heq : cells = more := (List.map_inj_right fun _ _ => Except.ok.inj).mp hm
  exact ⟨hform, heq ▸ hholds⟩

/-! ### The image of a draft -/

/-- The filter of the filtered layout, as it stands in the image. -/
def filterBytes (d : Draft) : Bytes := (d.filter.map Filter.encode).getD []

def offsetBytes (d : Draft) : Bytes := d.offsets.toList.flatMap (bigEndian 8)

/-- The table that the image of a draft is read as. -/
def table (d : Draft) (path : String) : Table where
  path := path
  generation := d.generation
  layout := d.layout
  image := d.image
  rows := d.offsets.size
  recordsEnd := d.records.size
  indexStart := d.records.size + d.filterBytes.length
  filter := d.filter

@[simp] theorem table_filter (d : Draft) (path : String) : (d.table path).filter = d.filter := rfl

/-- A draft whose image can be read: its filter is there when the layout has one, and every number
in the trailer fits its field. -/
structure Fits (d : Draft) : Prop where
  plain_iff : d.layout = .plain ↔ d.filter = none
  words_lt : ∀ f ∈ d.filter, f.words.size < capacity 4
  image_le : d.image.size ≤ Directory.maxFileSize

theorem toList_image (d : Draft) : d.image.toList =
    d.records.toList ++ (d.filterBytes ++ (d.offsetBytes ++ bigEndian 8 d.offsets.size)) := by
  simp [image, trailer, filterBytes, offsetBytes]

theorem length_flatMap_bigEndian (width : Nat) (numbers : List Nat) :
    (numbers.flatMap (bigEndian width)).length = numbers.length * width := by
  rw [List.length_flatMap]
  simp only [length_bigEndian, List.map_const', List.sum_replicate_nat]

theorem length_offsetBytes (d : Draft) : d.offsetBytes.length = d.offsets.size * 8 := by
  rw [offsetBytes, length_flatMap_bigEndian, Array.length_toList]

theorem size_image (d : Draft) :
    d.image.size = d.records.size + d.filterBytes.length + d.offsets.size * 8 + 8 := by
  have := congrArg List.length d.toList_image
  simp only [Array.length_toList, List.length_append, length_offsetBytes, length_bigEndian] at this
  omega

/-- Every number up to the size of an image fits eight bytes, since no file is longer. -/
theorem lt_capacity_of_le_size {d : Draft} (h : d.image.size ≤ Directory.maxFileSize) {n : Nat}
    (hn : n ≤ d.image.size) : n < capacity 8 := by
  have hmax : Directory.maxFileSize < capacity 8 := by decide
  omega

theorem numberOf_rows {d : Draft} (h : d.image.size ≤ Directory.maxFileSize) :
    Table.numberOf d.image (d.image.size - 8) 8 = d.offsets.size := by
  have hsize := d.size_image
  have himage : d.image.toList =
      (d.records.toList ++ d.filterBytes ++ d.offsetBytes) ++
        (bigEndian 8 d.offsets.size ++ []) := by
    simp [toList_image]
  refine Table.numberOf_field himage ?_ (lt_capacity_of_le_size h (by omega))
  simp only [List.length_append, Array.length_toList, length_offsetBytes]
  omega

theorem numberOf_offset {d : Draft} (h : d.image.size ≤ Directory.maxFileSize) {i offset : Nat}
    (ho : d.offsets[i]? = some offset) (hle : offset ≤ d.records.size) :
    Table.numberOf d.image (d.records.size + d.filterBytes.length + i * 8) 8 = offset := by
  have hsize := d.size_image
  obtain ⟨hi, ho⟩ := Array.getElem?_eq_some_iff.mp ho
  have hsplit : d.offsets.toList =
      d.offsets.toList.take i ++ offset :: d.offsets.toList.drop (i + 1) := by
    rw [← ho, ← Array.getElem_toList, ← List.drop_eq_getElem_cons, List.take_append_drop]
  have himage : d.image.toList =
      (d.records.toList ++ d.filterBytes ++ (d.offsets.toList.take i).flatMap (bigEndian 8)) ++
        (bigEndian 8 offset ++ ((d.offsets.toList.drop (i + 1)).flatMap (bigEndian 8) ++
          bigEndian 8 d.offsets.size)) := by
    rw [toList_image, offsetBytes]
    conv => lhs; rw [hsplit]
    simp
  refine Table.numberOf_field himage ?_ (lt_capacity_of_le_size h (by omega))
  simp only [List.length_append, Array.length_toList, length_flatMap_bigEndian, List.length_take]
  omega

theorem filterBytes_eq {d : Draft} {f : Filter} (hf : d.filter = some f) :
    d.filterBytes = f.wordBytes ++ bigEndian 4 f.words.size := by
  simp [filterBytes, hf, Filter.encode]

theorem length_filterBytes_of_some {d : Draft} {f : Filter} (hf : d.filter = some f) :
    d.filterBytes.length = f.words.size * 8 + 4 := by
  rw [filterBytes_eq hf, List.length_append, Filter.length_wordBytes, length_bigEndian]

/-- The number of words stands behind the words, as far as four bytes tell it. -/
theorem numberOf_words {d : Draft} {f : Filter} (hf : d.filter = some f) :
    Table.numberOf d.image (d.records.size + d.filterBytes.length - 4) 4 =
      f.words.size % capacity 4 := by
  have hlen := length_filterBytes_of_some hf
  have himage : d.image.toList = (d.records.toList ++ f.wordBytes) ++
      (bigEndian 4 f.words.size ++ (d.offsetBytes ++ bigEndian 8 d.offsets.size)) := by
    rw [toList_image, filterBytes_eq hf]
    simp
  rw [Table.numberOf, Table.bytesOf_field himage ?_ (by rw [length_bigEndian]),
    ofBigEndian_bigEndian_mod]
  simp only [List.length_append, Array.length_toList, Filter.length_wordBytes]
  omega

/-- The words that are told of are read as the filter, and the others are left to the records. -/
theorem filterBefore_image {d : Draft} {f : Filter} (hf : d.filter = some f) (path : String) :
    Table.filterBefore path d.image (d.records.size + d.filterBytes.length) =
      (Filter.ofWords f.toldWords.toArray).map fun told =>
        (d.records.size + (f.words.size - f.words.size % capacity 4) * 8, told) := by
  have hlen := length_filterBytes_of_some hf
  have hle := Nat.mod_le f.words.size (capacity 4)
  have htold := f.length_toldWords
  let untold := f.words.toList.take (f.words.size - f.words.size % capacity 4)
  have huntold : untold.length = f.words.size - f.words.size % capacity 4 := by
    rw [List.length_take, Array.length_toList]
    omega
  have hwords : Table.bytesOf d.image
      (d.records.size + (f.words.size - f.words.size % capacity 4) * 8)
      (d.records.size + d.filterBytes.length - 4) =
        f.toldWords.flatMap fun w => bigEndian 8 w.toNat := by
    have hsplit : f.wordBytes = (untold.flatMap fun w => bigEndian 8 w.toNat) ++
        f.toldWords.flatMap fun w => bigEndian 8 w.toNat := by
      rw [← List.flatMap_append, Filter.toldWords, List.take_append_drop, Filter.wordBytes]
    have himage : d.image.toList =
        (d.records.toList ++ untold.flatMap fun w => bigEndian 8 w.toNat) ++
          ((f.toldWords.flatMap fun w => bigEndian 8 w.toNat) ++
            (bigEndian 4 f.words.size ++ (d.offsetBytes ++ bigEndian 8 d.offsets.size))) := by
      rw [toList_image, filterBytes_eq hf, hsplit]
      simp only [List.append_assoc]
    refine Table.bytesOf_field himage ?_ ?_
    · rw [List.length_append, Array.length_toList, Filter.length_flatMap_words, huntold]
    · rw [Filter.length_flatMap_words, htold]
      omega
  have hstart : d.records.size + d.filterBytes.length - 4 - f.words.size % capacity 4 * 8 =
      d.records.size + (f.words.size - f.words.size % capacity 4) * 8 := by omega
  rw [Table.filterBefore, if_neg (by omega), numberOf_words hf, if_neg (by omega)]
  simp only [pure_eq_ok, hstart, hwords]
  rw [← htold, Filter.decodeWords_flatMap]
  exact bind_pure_comp ..

/-- A number of words that is told too small leaves more bytes to the records, not fewer. -/
theorem le_of_regions {d : Draft} (hp : d.layout = .plain ↔ d.filter = none) {path : String}
    {recordsEnd : Nat} {filter : Option Filter}
    (h : Table.regions path d.layout d.image (d.records.size + d.filterBytes.length) =
      .ok (recordsEnd, filter)) : d.records.size ≤ recordsEnd := by
  unfold Table.regions at h
  cases hl : d.layout with
  | plain =>
    rw [hl] at h
    have he := (Prod.mk.inj (Except.ok.inj h)).1
    omega
  | filtered =>
    rw [hl] at h
    have hsome : d.filter ≠ none := fun hn => by simp [hp.mpr hn] at hl
    obtain ⟨f, hf⟩ := Option.ne_none_iff_exists'.mp hsome
    dsimp only at h
    rw [filterBefore_image hf] at h
    obtain ⟨⟨start, words⟩, hbefore, h⟩ := bind_eq_ok.mp h
    obtain ⟨told, -, hstart⟩ := map_eq_ok.mp hbefore
    have he := (Prod.mk.inj (Except.ok.inj h)).1
    have hle := (Prod.mk.inj hstart).1
    omega

theorem Fits.regions {d : Draft} (h : d.Fits) (path : String) :
    Table.regions path d.layout d.image (d.records.size + d.filterBytes.length) =
      .ok (d.records.size, d.filter) := by
  unfold Table.regions
  cases hl : d.layout with
  | plain =>
    have hf := h.plain_iff.mp hl
    simp [filterBytes, hf]
  | filtered =>
    cases hf : d.filter with
    | none => simp [h.plain_iff.mpr hf] at hl
    | some f =>
      have hlt := h.words_lt f hf
      dsimp only
      rw [filterBefore_image hf, Filter.ofWords_toldWords hlt, Nat.mod_eq_of_lt hlt, Nat.sub_self,
        Nat.zero_mul, Nat.add_zero]
      rfl

/-- The image of a draft that holds cells is read as the draft's table, but with the filter that is
told of. -/
theorem Holds.parse_image_eq {d : Draft} {cells : List Cell} (hd : d.Holds cells)
    (hp : d.layout = .plain ↔ d.filter = none) (hle : d.image.size ≤ Directory.maxFileSize)
    (path : String) :
    Table.parse path d.generation d.layout d.image =
      (Table.regions path d.layout d.image (d.records.size + d.filterBytes.length)).map fun r =>
        { d.table path with recordsEnd := r.1, filter := r.2 } := by
  have hsize := d.size_image
  have hindex : d.image.size - 8 - d.offsets.size * 8 =
      d.records.size + d.filterBytes.length := by omega
  have hlast : 0 < d.offsets.size → Table.numberOf d.image
      (d.records.size + d.filterBytes.length + (d.offsets.size - 1) * 8) 8 < d.records.size := by
    intro hpos
    have hcells := hd.size
    obtain ⟨front, record, back, he, hs, ho⟩ := hd.records (d.offsets.size - 1) (by omega)
    have hlen := congrArg List.length hs
    obtain ⟨-, field, rest, -, -, rfl⟩ := Record.encode_eq_ok he
    simp only [Array.length_toList, List.length_append, Record.length_counted,
      length_bigEndian] at hlen
    rw [numberOf_offset hle ho (by omega)]
    omega
  rw [Table.parse]
  simp only [numberOf_rows hle, hindex]
  rw [if_neg (by omega), if_neg (by omega)]
  cases hregions : Table.regions path d.layout d.image
      (d.records.size + d.filterBytes.length) with
  | error fault => rfl
  | ok r =>
    have hend : d.records.size ≤ r.1 := le_of_regions hp hregions
    simp only [ok_bind]
    rw [if_neg fun ⟨hpos, hover⟩ => Nat.not_lt.mpr (Nat.le_trans hend hover) (hlast hpos)]
    rfl

/-- The image of a draft that holds cells is read as the draft's table. -/
theorem Holds.parse_image {d : Draft} {cells : List Cell} (hd : d.Holds cells) (h : d.Fits)
    (path : String) :
    Table.parse path d.generation d.layout d.image = .ok (d.table path) := by
  rw [hd.parse_image_eq h.plain_iff h.image_le, h.regions]
  rfl

end Draft

end TableStore

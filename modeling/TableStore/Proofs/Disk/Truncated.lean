import TableStore.Proofs.Disk.Published
import TableStore.Proofs.Table.Filters

/-! Filters of too many words. Four bytes tell how many words a filter has, so of a filter with more
words than they can count only the last ones are told of. When their number comes to zero, the table
cannot be opened; when it comes to one, the last word is read as the whole filter, and a table whose
keys have no bits there is read as one that holds no key at all. -/

namespace TableStore

/-- The bits of just as many words as four bytes tell apart. -/
def uncountedBits : Nat := 274877906944

/-- The bits of one word more. -/
def wideBits : Nat := 274877907008

namespace Filter

variable {keys : List Bytes}

theorem size_uncounted (keys : List Bytes) :
    ((empty uncountedBits).insertAll keys).words.size = capacity 4 := by
  rw [size_insertAll, empty, Array.size_replicate]
  rfl

theorem size_wide (keys : List Bytes) :
    ((empty wideBits).insertAll keys).words.size = capacity 4 + 1 := by
  rw [size_insertAll, empty, Array.size_replicate]
  rfl

/-- The key has no bit in the last word of a wide filter. -/
def IsLow (key : Bytes) : Prop := ∀ i ∈ positions wideBits key, i < uncountedBits
  deriving Decidable

/-- Nothing is left of the filter of such keys. -/
theorem toldWords_wide (h : ∀ key ∈ keys, IsLow key) :
    ((empty wideBits).insertAll keys).toldWords = [0] := by
  have hbits : (empty wideBits).bits = wideBits := by
    rw [bits, ← size_insertAll _ [], size_wide]
    rfl
  have hsize := size_wide keys
  have hlt : capacity 4 < ((empty wideBits).insertAll keys).words.toList.length := by
    rw [Array.length_toList, hsize]
    exact Nat.lt_succ_self _
  have hlast : ((empty wideBits).insertAll keys).words.toList[capacity 4] = 0 := by
    refine word_eq_of_bits fun j hj => ?_
    have hunset : ((empty wideBits).insertAll keys).hasBit (capacity 4 * 64 + j) = false := by
      rw [hasBit_insertAll, hasBit_empty, Bool.or_false, hbits]
      refine decide_eq_false ?_
      rintro ⟨key, hk, hi⟩
      have hlow := h key hk _ hi
      have hcap : capacity 4 * 64 = uncountedBits := rfl
      omega
    rw [hasBit_word hj, Array.getD_eq_getD_getElem?, ← Array.getElem?_toList,
      List.getElem?_eq_getElem hlt, Option.getD_some] at hunset
    rw [hunset]
    simp
  rw [toldWords, hsize, Nat.add_mod_left, Nat.mod_eq_of_lt (by decide), Nat.add_sub_cancel,
    List.drop_eq_getElem_cons hlt, hlast,
    List.drop_of_length_le (Nat.le_of_eq (Array.length_toList.trans hsize))]

theorem mayContain_empty (bits : Nat) (key : Bytes) : (empty bits).mayContain key = false := by
  simp [mayContain, positions, multipliers]

end Filter

/-- The filter of the table has no bits, so it denies every key. -/
def Table.IsBlind (t : Table) : Prop := t.filter = some (.empty 64)

theorem Table.IsBlind.mayContain {t : Table} (h : t.IsBlind) (key : Bytes) :
    t.mayContain key = false := by
  rw [Table.mayContain, h, Option.all_some, Filter.mayContain_empty]

theorem Table.IsBlind.get? {t : Table} (h : t.IsBlind) (key : Bytes) : t.get? key = .ok none := by
  rw [Table.get?, h.mayContain]
  rfl

/-- A sound table knows the keys of its rows, so it denies none of them. -/
theorem Table.IsBlind.not_isSound {t : Table} (h : t.IsBlind) {cell : Cell} {items : List Item}
    (hrows : t.cellsFrom 0 = .ok cell :: items) : ¬ t.IsSound := by
  intro hs
  have hcell : cell ∈ t.cells := by
    rw [Table.cells, hrows]
    exact List.mem_cons_self
  have hknown := hs.mayContain cell hcell
  rw [h.mayContain] at hknown
  contradiction

namespace Draft

variable {generation : UInt64} {d : Draft} {cells : List Cell} {keys : List Bytes} {f : Filter}
  {disk disk' : Disk}

/-- What a draft with a filter is read as. -/
theorem Holds.parse_told {bits : Nat} (hd : d.Holds cells)
    (hform : (empty generation .filtered bits).SameForm d) (hf : d.filter = some f)
    (hle : d.image.size ≤ Directory.maxFileSize) (path : String) :
    Table.parse path d.generation d.layout d.image =
      (Filter.ofWords f.toldWords.toArray).map fun told =>
        { d.table path with
          recordsEnd := d.records.size + (f.words.size - f.words.size % capacity 4) * 8
          filter := some told } := by
  have hlayout : d.layout = .filtered := hform.layout
  rw [hd.parse_image_eq (plain_iff_of_sameForm hform) hle, hlayout, Table.regions,
    filterBefore_image hf]
  cases Filter.ofWords f.toldWords.toArray <;> rfl

/-- A published table whose filter is counted as one of no words does not open. -/
theorem Published.openTable_uncounted (h : d.Published disk disk') (hd : d.Holds cells)
    (hform : (empty generation .filtered uncountedBits).SameForm d)
    (hf : d.filter = some ((Filter.empty uncountedBits).insertAll keys)) :
    disk'.openTable d.fileName = .error (.damage .emptyFilter) := by
  have hnone : ((Filter.empty uncountedBits).insertAll keys).toldWords = [] := by
    refine List.length_eq_zero_iff.mp ?_
    rw [Filter.length_toldWords, Filter.size_uncounted, Nat.mod_self]
  rw [Disk.openTable, Table.ofFile, d.parse?_fileName, Disk.read_eq_ok.mpr ⟨h.reaches, h.file⟩]
  dsimp only
  rw [hd.parse_told hform hf h.image_le, hnone]
  rfl

/-- One whose filter is counted as one of one word opens, but denies its keys. -/
theorem Published.openTable_wide (h : d.Published disk disk') (hd : d.Holds cells)
    (hform : (empty generation .filtered wideBits).SameForm d)
    (hf : d.filter = some ((Filter.empty wideBits).insertAll keys))
    (hlow : ∀ key ∈ keys, Filter.IsLow key) :
    ∃ t, disk'.openTable d.fileName = .ok t ∧ t.IsBlind ∧ t.cellsFrom 0 = cells.map .ok := by
  have hparse := hd.parse_told hform hf h.image_le (disk'.pathOf d.fileName)
  rw [Filter.toldWords_wide hlow] at hparse
  have hopen : disk'.openTable d.fileName = .ok _ := Disk.openTable_eq_ok.mpr
    ⟨d.generation, d.layout, d.image, d.parse?_fileName disk', h.reaches, h.file, hparse⟩
  exact ⟨_, hopen, rfl, h.cellsFrom hform hd hopen⟩

end Draft

end TableStore

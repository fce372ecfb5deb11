import TableStore.Proofs.Merge.Faults
import TableStore.Proofs.Table.Contents

/-! Damaged tables: the keys of all rows can be read, while some rows cannot. Looking a key up
reads its own row and no other; a scan ends at the first row that cannot be read. So the two
agree on a key, unless such a row stands between the start of the scan and the key, and then the
scan ends in the fault of that row, in front of the key. -/

namespace TableStore

namespace Table

/-- All keys of a table can be read, ascend, and are known to the filter. -/
def IsLegible (t : Table) : Prop := ∃ keys, t.HasKeys keys

/-- The keys of all rows, if they can be read. -/
def keys (t : Table) : Except Fault (List Bytes) := (List.range t.rows).mapM t.keyAt

theorem hasKeys_iff {t : Table} {keys : List Bytes} : t.HasKeys keys ↔
    t.keys = .ok keys ∧ keys.Pairwise (· < ·) ∧ ∀ key ∈ keys, t.mayContain key = true := by
  rw [Table.keys, mapM_eq_ok]
  constructor
  · intro h
    refine ⟨List.ext_getElem (by simp [h.rows]) fun i hi hi' => ?_, h.ascending, h.mayContain⟩
    rw [List.getElem_map, List.getElem_map, List.getElem_range]
    exact h.keyAt i (by simpa using hi')
  · rintro ⟨hk, ha, hm⟩
    have hrows : t.rows = keys.length := by simpa using congrArg List.length hk
    refine ⟨ha, hrows, fun i hi => ?_, hm⟩
    have hrow := List.getElem_of_eq hk (i := i) (by simpa [hrows] using hi)
    simpa using hrow

theorem IsSound.isLegible {t : Table} (h : t.IsSound) : t.IsLegible := ⟨_, Holds.hasKeys h⟩

/-- A row that cannot be read stands from `start` on and in front of a key. -/
def Hides (t : Table) (start key : Bytes) (fault : Fault) : Prop :=
  ∃ row rowKey, t.keyAt row = .ok rowKey ∧ t.cellAt row = .error fault ∧
    ¬ rowKey < start ∧ rowKey < key

/-- The version that looking a key up finds, if it finds one. -/
def versionOf? (t : Table) (key : Bytes) : Option Version :=
  (t.get? key).toOption.bind fun found => found.map Cell.version

namespace HasKeys

variable {t : Table} {keys : List Bytes}

theorem key_of_cellAt (h : t.HasKeys keys) {i : Nat} (hi : i < keys.length) {cell : Cell}
    (hc : t.cellAt i = .ok cell) : cell.key = keys[i] := by
  have hkey := keyAt_of_cellAt hc
  rw [h.keyAt i hi, Except.ok.injEq] at hkey
  exact hkey.symm

/-- Looking a key up finds the cell of its row, if a row has the key. -/
theorem get?_cases (h : t.HasKeys keys) {key : Bytes} {found : Option Cell}
    (hg : t.get? key = .ok found) :
    key ∉ keys ∧ found = none ∨
      ∃ i, ∃ hi : i < keys.length, ∃ cell, keys[i] = key ∧ t.cellAt i = .ok cell ∧
        found = some cell := by
  by_cases hk : key ∈ keys
  · obtain ⟨i, hi, rfl⟩ := List.mem_iff_getElem.mp hk
    rw [h.get?_getElem hi, map_eq_ok] at hg
    obtain ⟨cell, hc, he⟩ := hg
    exact Or.inr ⟨i, hi, cell, rfl, hc, he.symm⟩
  · rw [h.get?_of_not_mem hk, Except.ok.injEq] at hg
    exact Or.inl ⟨hk, hg.symm⟩

/-! ### Scanning up to a row that cannot be read -/

/-- What a scan reads are cells of rows, from the first row on. -/
theorem of_mem_readable (h : t.HasKeys keys) {row : Nat} {cell : Cell}
    (hc : cell ∈ readable (t.cellsFrom row)) :
    ∃ i, ∃ hi : i < keys.length, row ≤ i ∧ t.cellAt i = .ok cell ∧ cell.key = keys[i] := by
  fun_induction Table.cellsFrom t row with
  | case1 row hr first hfirst ih =>
    rw [readable, List.mem_cons] at hc
    rcases hc with rfl | hc
    · have hi : row < keys.length := h.rows ▸ hr
      exact ⟨row, hi, Nat.le_refl row, hfirst, h.key_of_cellAt hi hfirst⟩
    · obtain ⟨i, hi, hle, hcell, hk⟩ := ih hc
      exact ⟨i, hi, Nat.le_of_succ_le hle, hcell, hk⟩
  | case2 row hr fault hfault => simp [readable] at hc
  | case3 row hr => simp [readable] at hc

theorem ascending_readable (h : t.HasKeys keys) (row : Nat) :
    Ascending (readable (t.cellsFrom row)) := by
  fun_induction Table.cellsFrom t row with
  | case1 row hr first hfirst ih =>
    refine List.pairwise_cons.mpr ⟨fun cell hc => ?_, ih⟩
    obtain ⟨i, hi, hle, -, hk⟩ := h.of_mem_readable hc
    have hrow : row < keys.length := h.rows ▸ hr
    rw [h.key_of_cellAt hrow hfirst, hk]
    exact (h.lt_iff hrow hi).mpr hle
  | case2 => exact List.Pairwise.nil
  | case3 => exact List.Pairwise.nil

/-- A scan reads a row that can be read, or it ends in the fault of a row in front of that one. -/
theorem reached_or_stopped (h : t.HasKeys keys) {row i : Nat} (hle : row ≤ i)
    (hi : i < keys.length) {cell : Cell} (hc : t.cellAt i = .ok cell) :
    cell ∈ readable (t.cellsFrom row) ∨
      ∃ j, ∃ hj : j < keys.length, ∃ fault, row ≤ j ∧ j < i ∧ t.cellAt j = .error fault ∧
        firstFault? (t.cellsFrom row) = some fault ∧
        ∀ c ∈ readable (t.cellsFrom row), c.key < keys[j] := by
  fun_induction Table.cellsFrom t row with
  | case1 row hr first hfirst ih =>
    have hrow : row < keys.length := h.rows ▸ hr
    rcases Nat.eq_or_lt_of_le hle with rfl | hlt
    · rw [hc, Except.ok.injEq] at hfirst
      exact Or.inl (hfirst ▸ List.mem_cons_self)
    · rcases ih hlt with hm | ⟨j, hj, fault, hrj, hji, hfault, hstop, hbelow⟩
      · exact Or.inl (List.mem_cons_of_mem _ hm)
      · refine Or.inr ⟨j, hj, fault, Nat.le_of_succ_le hrj, hji, hfault, hstop, fun c hm => ?_⟩
        rcases List.mem_cons.mp hm with rfl | hm
        · rw [h.key_of_cellAt hrow hfirst]
          exact (h.lt_iff hrow hj).mpr hrj
        · exact hbelow c hm
  | case2 row hr fault hfault =>
    rcases Nat.eq_or_lt_of_le hle with rfl | hlt
    · simp [hc] at hfault
    · exact Or.inr ⟨row, h.rows ▸ hr, fault, Nat.le_refl row, hlt, hfault, rfl, by simp [readable]⟩
  | case3 row hr => exact absurd (Nat.lt_of_le_of_lt hle (h.rows ▸ hi)) hr

end HasKeys

/-! ### Look-ups and scans -/

theorem IsLegible.get?_of_versionOf? {t : Table} (h : t.IsLegible) {key : Bytes} {v : Version}
    (hv : t.versionOf? key = some v) : t.get? key = .ok (some ⟨key, v⟩) := by
  obtain ⟨keys, h⟩ := h
  obtain ⟨found, hf, hv⟩ := Option.bind_eq_some_iff.mp hv
  obtain ⟨cell, rfl, rfl⟩ := Option.map_eq_some_iff.mp hv
  rw [toOption_eq_some] at hf
  rcases h.get?_cases hf with ⟨-, he⟩ | ⟨i, hi, own, rfl, hc, he⟩
  · simp at he
  · rw [Option.some.injEq] at he
    rw [hf, he, ← h.key_of_cellAt hi hc]

/-- The items of a scan, none where it cannot begin. -/
def itemsFrom (t : Table) (start : Bytes) : List Item := (t.scan start).toOption.getD []

/-- The cells that a scan reads ascend from its start on. It shows of a key what looking the key up
finds, or it has stopped at a row in front of the key. -/
structure ShowsFrom (t : Table) (start : Bytes) (items : List Item) : Prop where
  ascending : Ascending (readable items)
  not_lt_start : ∀ cell ∈ readable items, ¬ cell.key < start
  shown_or_hidden : ∀ key found, ¬ key < start → t.get? key = .ok found →
    lookup key (readable items) = t.versionOf? key ∨
      ∃ fault, firstFault? items = some fault ∧ t.Hides start key fault ∧
        ∀ cell ∈ readable items, cell.key < key

theorem HasKeys.showsFrom {t : Table} {keys : List Bytes} (h : t.HasKeys keys) {start : Bytes}
    {row : Nat} (hs : SplitsAt keys start row) : t.ShowsFrom start (t.cellsFrom row) where
  ascending := h.ascending_readable row
  not_lt_start := by
    intro cell hc hlt
    obtain ⟨i, hi, hle, -, hk⟩ := h.of_mem_readable hc
    exact Nat.not_lt_of_le hle (hs.lt_of_lt hi (hk ▸ hlt))
  shown_or_hidden := by
    intro key found hge hg
    have hheld : t.versionOf? key = found.map Cell.version := by
      rw [versionOf?, hg]
      rfl
    rcases h.get?_cases hg with ⟨hk, rfl⟩ | ⟨i, hi, cell, rfl, hc, rfl⟩
    · refine Or.inl (hheld ▸ lookup_eq_none_iff.mpr fun cell hm he => hk ?_)
      obtain ⟨i, hi, -, -, hkey⟩ := h.of_mem_readable hm
      exact he ▸ hkey ▸ List.getElem_mem hi
    · have hkey := h.key_of_cellAt hi hc
      rcases h.reached_or_stopped (hs.le_of_not_lt hi hge) hi hc with
        hm | ⟨j, hj, fault, hle, hji, hfault, hstop, hbelow⟩
      · exact Or.inl (hheld ▸ hkey ▸ (h.ascending_readable row).lookup_of_mem hm)
      · have hlt := (h.lt_iff hj hi).mpr hji
        have hstart : ¬ keys[j] < start := fun hl => Nat.not_lt_of_le hle (hs.lt_of_lt hj hl)
        exact Or.inr ⟨fault, hstop, ⟨j, keys[j], h.keyAt j hj, hfault, hstart, hlt⟩,
          fun c hm => List.lt_trans (hbelow c hm) hlt⟩

/-- A scan of a legible table begins, and what it shows is known. -/
theorem IsLegible.scan {t : Table} (h : t.IsLegible) (start : Bytes) :
    t.scan start = .ok (t.itemsFrom start) ∧ t.ShowsFrom start (t.itemsFrom start) := by
  obtain ⟨keys, h⟩ := h
  obtain ⟨row, hscan, hs⟩ := h.scan start
  have hitems : t.itemsFrom start = t.cellsFrom row := by
    rw [itemsFrom, hscan]
    rfl
  rw [hitems]
  exact ⟨hscan, h.showsFrom hs⟩

end Table

end TableStore

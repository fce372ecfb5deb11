import TableStore.Proofs.Table.Contents
import TableStore.Proofs.Table.Safety

/-! Looking up by halving against looking up row by row. When all rows of a table can be read and
ascend, and its filter, if it has one, knows their keys, the table answers as a walk through its
rows does: the place of a key is the number of smaller keys, a scan is a `filter` and a look-up is a
`find?`. A filter that lets other keys pass as well changes no answer. -/

namespace TableStore

/-- A split in range is the number of keys in front of it. -/
theorem SplitsAt.countP {keys : List Bytes} {key : Bytes} {row : Nat} (h : SplitsAt keys key row)
    (hr : row ≤ keys.length) : keys.countP (fun other => other < key) = row := by
  have hfront : (keys.take row).countP (fun other => other < key) = (keys.take row).length :=
    List.countP_eq_length.mpr fun other ho => decide_eq_true (h.1 other ho)
  have hback : (keys.drop row).countP (fun other => other < key) = 0 :=
    List.countP_eq_zero.mpr fun other ho => by simpa using h.2 other ho
  conv => lhs; rw [← List.take_append_drop row keys]
  rw [List.countP_append, hfront, hback, List.length_take]
  omega

namespace Table

variable {t : Table} {cells : List Cell}

theorem HasKeys.position_eq {keys : List Bytes} (h : t.HasKeys keys) (key : Bytes) :
    t.position key = .ok (keys.countP fun other => other < key) := by
  obtain ⟨row, hp, hs⟩ := h.position key
  rw [hp, hs.countP (h.rows ▸ position_le hp)]

/-- The cells of all rows, read one after another; a row that cannot be read is a fault. -/
def allRows (t : Table) : Except Fault (List Cell) := (List.range t.rows).mapM t.cellAt

theorem cellAt_of_allRows (h : t.allRows = .ok cells) :
    t.rows = cells.length ∧ ∀ i (hi : i < cells.length), t.cellAt i = .ok cells[i] := by
  have hall := mapM_eq_ok.mp h
  have hrows : t.rows = cells.length := by simpa using congrArg List.length hall
  refine ⟨hrows, fun i hi => ?_⟩
  have hrow := List.getElem_of_eq hall (i := i) (by simpa [hrows] using hi)
  simpa using hrow

/-- A table whose rows can be read, ascend, and are known to its filter holds them. -/
theorem holds_of_allRows (h : t.allRows = .ok cells) (ha : Ascending cells)
    (hf : ∀ f ∈ t.filter, ∀ cell ∈ cells, f.mayContain cell.key = true) : t.Holds cells where
  ascending := ha
  rows := (cellAt_of_allRows h).1
  cellAt := (cellAt_of_allRows h).2
  mayContain := fun cell hc => (Option.all_eq_true _ _).mpr fun f hm => hf f hm cell hc

/-- A table answers as a walk through these cells from the first to the last does. -/
structure AnswersAs (t : Table) (cells : List Cell) : Prop where
  /-- The place of a key is the number of cells with a smaller one. -/
  position : ∀ key, t.position key = .ok (cells.countP fun c => c.key < key)
  /-- A scan yields the cells that are not in front of a key, in order, and no fault. -/
  scan : ∀ key, t.scan key = .ok ((cells.filter fun c => ¬ c.key < key).map .ok)
  /-- A look-up yields the cell under the key, or nothing if there is none. -/
  get? : ∀ key, t.get? key = .ok (cells.find? fun c => c.key == key)

/-- A table whose rows can all be read and ascend answers as a walk through them does, provided that
its filter denies none of their keys. -/
theorem answersAs_of_allRows (hrows : t.allRows = .ok cells) (ha : Ascending cells)
    (hf : ∀ f ∈ t.filter, ∀ cell ∈ cells, f.mayContain cell.key = true) : t.AnswersAs cells := by
  have h := holds_of_allRows hrows ha hf
  refine ⟨fun key => ?_, h.scan, h.get?⟩
  rw [h.hasKeys.position_eq, List.countP_map]
  rfl

/-- Three rows under the keys "", "b" and "b" with a zero byte, behind them a filter with every bit
set, which denies no key at all. -/
def crowded : Array UInt8 :=
  #[0, 0, 0, 0, 0, 0, 0, 0, 0, 0, 0, 0, 0, 0, 0, 0,
    0, 0, 0, 1, 98, 255, 255, 255, 255, 255, 255, 255, 251,
    0, 0, 0, 2, 98, 0, 0, 0, 0, 0, 0, 0, 0, 7, 0, 0, 0, 2, 1, 2,
    255, 255, 255, 255, 255, 255, 255, 255, 0, 0, 0, 1,
    0, 0, 0, 0, 0, 0, 0, 0, 0, 0, 0, 0, 0, 0, 0, 16, 0, 0, 0, 0, 0, 0, 0, 29,
    0, 0, 0, 0, 0, 0, 0, 3]

/-- The filter lets "a" pass, yet looking it up finds nothing. -/
theorem crowded_answersAs :
    let cells : List Cell :=
      [⟨[], .present 0 []⟩, ⟨[98], .tombstone 5⟩, ⟨[98, 0], .present 7 [1, 2]⟩]
    ∃ t, parse "table_1.bdat" 1 .filtered crowded = .ok t ∧ t.allRows = .ok cells ∧
      t.mayContain [97] = true ∧ t.position [97] = .ok 1 ∧ t.get? [97] = .ok none ∧
      t.get? [98] = .ok (some ⟨[98], .tombstone 5⟩) ∧ t.position [99] = .ok 3 ∧
      t.scan [98, 0] = .ok [.ok ⟨[98, 0], .present 7 [1, 2]⟩] := by
  intro cells
  obtain ⟨t, ht, hrows, hmay, hknown⟩ :
      ∃ t, parse "table_1.bdat" 1 .filtered crowded = .ok t ∧ t.allRows = .ok cells ∧
        t.mayContain [97] = true ∧
        ∀ f ∈ t.filter, ∀ cell ∈ cells, f.mayContain cell.key = true :=
    exists_eq_ok_of_any (by decide +kernel)
  have ha : Ascending cells := by
    unfold Ascending
    decide
  have h := answersAs_of_allRows hrows ha hknown
  exact ⟨t, ht, hrows, hmay, h.position [97], h.get? [97], h.get? [98], h.position [99],
    h.scan [98, 0]⟩

end Table

end TableStore

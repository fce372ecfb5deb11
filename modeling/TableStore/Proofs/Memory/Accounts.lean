import Mathlib.Algebra.GroupWithZero.Nat
import Mathlib.Algebra.Order.BigOperators.Group.List
import Mathlib.Algebra.Order.Group.Nat
import Mathlib.Data.List.Dedup
import TableStore.Proofs.Memory.Buffers
import TableStore.Proofs.Stamps

/-! The accounts of a memory table. An edit draws a stamp from the clock of its process and puts its
version over the one that was there; the size of the table goes up by a new key and its payload, or
up or down by the difference of the payloads. Whatever the edits, the table is then the sorted map of
the last one of each key, its size is that of the keys and of the versions they have now, and the
payload that an edit puts its own over is part of the size, so nothing is cut off when it is taken
away. -/

namespace TableStore

/-! ### The bytes of cells -/

/-- Key and payload bytes. -/
def Cell.bytes (cell : Cell) : Nat := cell.key.length + cell.version.payloadSize

/-- The bytes that a key counts for with the version that it has, if any. -/
def bytesUnder (key : Bytes) (version : Option Version) : Nat :=
  (version.map fun version => (Cell.mk key version).bytes).getD 0

@[simp] theorem bytesUnder_none (key : Bytes) : bytesUnder key none = 0 := rfl

@[simp] theorem bytesUnder_some (key : Bytes) (version : Version) :
    bytesUnder key (some version) = key.length + version.payloadSize := rfl

theorem bytesUnder_lookup_le (key : Bytes) (cells : List Cell) :
    bytesUnder key (lookup key cells) ≤ (cells.map Cell.bytes).sum := by
  cases hl : lookup key cells with
  | none => exact Nat.zero_le _
  | some version => exact List.le_sum_of_mem (List.mem_map_of_mem (mem_of_lookup hl))

/-! ### Keys -/

/-- The keys written, each of them once. -/
def writtenKeys (writes : List Cell) : List Bytes := (writes.map Cell.key).dedup

theorem mem_keys_iff {key : Bytes} {cells : List Cell} :
    key ∈ cells.map Cell.key ↔ lookup key cells ≠ none := by
  rw [lookup_ne_none_iff, List.mem_map]

theorem mem_writtenKeys_iff {key : Bytes} {writes : List Cell} :
    key ∈ writtenKeys writes ↔ lastWrite? key writes ≠ none := by
  rw [lastWrite?, ← mem_keys_iff, List.map_reverse, List.mem_reverse]
  exact List.mem_dedup

namespace Buffer

variable {b : Buffer} {writes : List Cell}

/-- A cell put in its place counts instead of the one that had its key. -/
theorem sum_place (cell : Cell) {cells : List Cell} (h : Ascending cells) :
    ((place cell cells).map Cell.bytes).sum + bytesUnder cell.key (lookup cell.key cells) =
      (cells.map Cell.bytes).sum + cell.bytes := by
  induction cells with
  | nil => simp [place]
  | cons c rest ih =>
    have hrest := ih h.tail
    unfold place
    split
    · rename_i hlt
      have hne : c.key ≠ cell.key := fun he => List.lt_irrefl _ (he ▸ hlt)
      rw [lookup_cons, if_neg hne, List.map_cons, List.map_cons, List.sum_cons, List.sum_cons]
      omega
    · split
      · rename_i hge hgt
        -- All keys from here on are greater, so there is none to write over.
        have hnone : lookup cell.key (c :: rest) = none := by
          refine lookup_eq_none_iff.mpr fun d hd he => ?_
          rcases List.mem_cons.mp hd with rfl | hd
          · exact List.lt_irrefl _ (he ▸ hgt)
          · exact hge (he ▸ h.head_lt hd)
        rw [hnone, bytesUnder_none, List.map_cons, List.sum_cons]
        omega
      · rename_i hge hgt
        have he : c.key = cell.key := eq_of_not_lt_of_not_lt hge hgt
        have hold : bytesUnder c.key (some c.version) = c.bytes := rfl
        rw [lookup_cons, if_pos he, ← he, hold, List.map_cons, List.map_cons, List.sum_cons,
          List.sum_cons]
        omega

/-- The size after a write, if that of the version written over is part of the size before. -/
theorem sizeAfter_add (b : Buffer) (cell : Cell)
    (h : bytesUnder cell.key (lookup cell.key b.cells) ≤ b.size) :
    b.sizeAfter cell.key cell.version + bytesUnder cell.key (lookup cell.key b.cells) =
      b.size + cell.bytes := by
  unfold sizeAfter
  cases hl : lookup cell.key b.cells with
  | none => rfl
  | some previous =>
    rw [hl, bytesUnder_some] at h
    rw [bytesUnder_some, Cell.bytes]
    dsimp only
    split <;> omega

/-- The table holds the last write of each key, and the size is that of its cells. -/
structure Holds (b : Buffer) (writes : List Cell) : Prop where
  sound : b.IsSound
  contents : ∀ key, lookup key b.cells = lastWrite? key writes
  size : b.size = (b.cells.map Cell.bytes).sum

theorem holds_empty (filterBits : Nat) : (empty filterBits).Holds [] :=
  ⟨isSound_empty filterBits, fun _ => rfl, rfl⟩

theorem Holds.write (h : b.Holds writes) (cell : Cell) :
    (b.write cell).Holds (writes ++ [cell]) where
  sound := h.sound.write cell
  contents key := by rw [lookup_write, lastWrite?_concat, h.contents]
  size := by
    have hold := bytesUnder_lookup_le cell.key b.cells
    have hcells := sum_place cell h.sound.ascending
    have hsize := b.sizeAfter_add cell (h.size ▸ hold)
    show b.sizeAfter cell.key cell.version = ((place cell b.cells).map Cell.bytes).sum
    -- What is written over counts in both equations, and cancels.
    rw [h.size] at hsize
    omega

/-! ### What the accounts say -/

theorem Holds.keys_perm (h : b.Holds writes) :
    (b.cells.map Cell.key).Perm (writtenKeys writes) := by
  have hnodup : (b.cells.map Cell.key).Nodup :=
    nodup_of_pairwise List.lt_irrefl (List.pairwise_map.mpr h.sound.ascending)
  have honce : (writtenKeys writes).Nodup := List.nodup_dedup _
  refine (List.perm_ext_iff_of_nodup hnodup honce).mpr fun key => ?_
  rw [mem_keys_iff, h.contents, mem_writtenKeys_iff]

theorem Holds.length_eq (h : b.Holds writes) : b.cells.length = (writtenKeys writes).length := by
  rw [← h.keys_perm.length_eq, List.length_map]

theorem Holds.size_eq (h : b.Holds writes) :
    b.size = ((writtenKeys writes).map fun key => bytesUnder key (lastWrite? key writes)).sum := by
  have hbytes : ∀ cell ∈ b.cells,
      cell.bytes = bytesUnder cell.key (lastWrite? cell.key writes) := by
    intro cell hm
    rw [← h.contents, h.sound.ascending.lookup_of_mem hm]
    rfl
  rw [h.size, List.map_congr_left hbytes, ← (h.keys_perm.map _).sum_nat, List.map_map]
  rfl

/-! ### Walking over a table -/

/-- What the call of a cursor after `n` others answers. -/
def Cursor.visit (b : Buffer) (cursor : Cursor) : Nat → Option Cell
  | 0 => (cursor.next b).1
  | n + 1 => (cursor.next b).2.visit b n

theorem Cursor.visit_of_ended (b : Buffer) (bound : Bound) (n : Nat) :
    (Cursor.mk bound true).visit b n = none := by
  induction n with
  | zero => rfl
  | succ n ih => exact ih

theorem Cursor.visit_eq (h : Ascending b.cells) (bound : Bound) (n : Nat) :
    (Cursor.mk bound false).visit b n = (b.cellsFrom bound)[n]? := by
  induction n generalizing bound with
  | zero =>
    rw [← List.head?_eq_getElem?, ← b.first?_eq_head?, visit, next]
    cases b.first? bound <;> rfl
  | succ n ih =>
    rw [visit, next]
    cases hc : b.cellsFrom bound with
    | nil =>
      rw [b.first?_eq_head?, hc]
      exact visit_of_ended b bound n
    | cons cell rest =>
      rw [b.first?_eq_head?, hc]
      exact (ih _).trans (by rw [cellsFrom_above h hc, List.getElem?_cons_succ])

/-- Walking from a key on reads the cells from there on, in order, and then none. -/
theorem Holds.walk (h : b.Holds writes) (first : Bytes) : ∃ cells, Ascending cells ∧
    (∀ cell, cell ∈ cells ↔
      lastWrite? cell.key writes = some cell.version ∧ ¬ cell.key < first) ∧
    ∀ n, (Cursor.mk (.atLeast first) false).visit b n = cells[n]? := by
  have hasc := h.sound.ascending
  refine ⟨b.cellsFrom (.atLeast first), hasc.sublist List.filter_sublist, fun cell => ?_,
    Cursor.visit_eq hasc _⟩
  rw [← h.contents, hasc.lookup_eq_some_iff, cellsFrom, List.mem_filter, decide_eq_true_iff]
  rfl

end Buffer

/-! ### Edits at their moments -/

/-- What is done to a memory table. -/
inductive Edit
  | upsert (key data : Bytes)
  | remove (key : Bytes)
  deriving DecidableEq

namespace Edit

/-- The cell that an edit writes under its stamp. -/
def cell (stamp : Stamp) : Edit → Cell
  | upsert key data => ⟨key, .present stamp data⟩
  | remove key => ⟨key, .tombstone stamp⟩

@[simp] theorem stamp?_cell (stamp : Stamp) (edit : Edit) :
    (edit.cell stamp).version.stamp? = some stamp := by
  cases edit <;> rfl

end Edit

/-- The moment of a draw from the clock of a process, for an edit of the table or, without one, for
a write to some other table. -/
structure Occasion where
  millis : Int64
  edit : Option Edit
  deriving DecidableEq

/-- A memory table, the clock of its process and the record of what was written. -/
structure Journal where
  buffer : Buffer
  clock : Clock
  writes : List Cell

namespace Journal

variable {j : Journal} {millis : Int64}

/-- A fresh table in a fresh process. -/
def start (filterBits : Nat) : Journal := ⟨.empty filterBits, {}, []⟩

def perform (j : Journal) (occasion : Occasion) : Journal :=
  let (stamp, clock) := j.clock.draw occasion.millis
  match occasion.edit with
  | none => { j with clock }
  | some edit =>
    let cell := edit.cell stamp
    ⟨j.buffer.write cell, clock, j.writes ++ [cell]⟩

def run (j : Journal) (occasions : List Occasion) : Journal := occasions.foldl perform j

@[simp] theorem perform_none (j : Journal) (millis : Int64) :
    j.perform ⟨millis, none⟩ = { j with clock := (j.clock.draw millis).2 } := rfl

@[simp] theorem perform_some (j : Journal) (millis : Int64) (edit : Edit) :
    j.perform ⟨millis, some edit⟩ =
      ⟨j.buffer.write (edit.cell (j.clock.draw millis).1), (j.clock.draw millis).2,
        j.writes ++ [edit.cell (j.clock.draw millis).1]⟩ := rfl

/-! ### The record -/

/-- The edits made at some occasions, each with the stamp of its draw. -/
def stamped (clock : Clock) (occasions : List Occasion) : List Cell :=
  (occasions.zip (clock.drawAll (occasions.map Occasion.millis))).filterMap
    fun (occasion, stamp) => occasion.edit.map (Edit.cell stamp)

theorem writes_run (j : Journal) (occasions : List Occasion) :
    (j.run occasions).writes = j.writes ++ stamped j.clock occasions := by
  induction occasions generalizing j with
  | nil => exact (List.append_nil _).symm
  | cons occasion occasions ih =>
    refine (ih (j.perform occasion)).trans ?_
    obtain ⟨millis, _ | edit⟩ := occasion
    · rfl
    · rw [perform_some, List.append_assoc]
      rfl

theorem holds_run (h : j.buffer.Holds j.writes) (occasions : List Occasion) :
    (j.run occasions).buffer.Holds (j.run occasions).writes := by
  induction occasions generalizing j with
  | nil => exact h
  | cons occasion occasions ih =>
    refine ih (j := j.perform occasion) ?_
    obtain ⟨millis, _ | edit⟩ := occasion
    · exact h
    · exact h.write _

/-! ### Stamps -/

/-- Later writes are newer, and none is ahead of the clock. -/
structure IsStamped (j : Journal) : Prop where
  started : 0 ≤ j.clock.last.toInt
  reached : ∀ cell ∈ j.writes, ∃ stamp, cell.version.stamp? = some stamp ∧ stamp ≤ j.clock.last
  increasing : j.writes.Pairwise fun a b => a.version.Older b.version

theorem isStamped_start (filterBits : Nat) : (start filterBits).IsStamped :=
  ⟨Int.le_refl 0, fun _ h => absurd h List.not_mem_nil, List.Pairwise.nil⟩

theorem IsStamped.perform (h : j.IsStamped) (edit : Option Edit)
    (hr : j.clock.unbounded millis < 9223372036854775808) :
    (j.perform ⟨millis, edit⟩).IsStamped := by
  have d := Clock.draw_exactly h.started hr
  have hlt := d.last_lt
  have hstarted : 0 ≤ (j.clock.draw millis).2.last.toInt := by
    have hless := Int64.lt_iff_toInt_lt.mp hlt
    have hnot := h.started
    rw [d.kept]
    omega
  have hreached : ∀ cell ∈ j.writes, ∃ stamp, cell.version.stamp? = some stamp ∧
      stamp < (j.clock.draw millis).1 := by
    intro cell hm
    obtain ⟨stamp, hs, hle⟩ := h.reached cell hm
    exact ⟨stamp, hs, Int64.lt_of_le_of_lt hle hlt⟩
  have hbehind : ∀ cell ∈ j.writes, ∃ stamp, cell.version.stamp? = some stamp ∧
      stamp ≤ (j.clock.draw millis).2.last := by
    intro cell hm
    obtain ⟨stamp, hs, hless⟩ := hreached cell hm
    exact ⟨stamp, hs, d.kept ▸ Int64.le_of_lt hless⟩
  cases edit with
  | none => exact ⟨hstarted, hbehind, h.increasing⟩
  | some edit =>
    refine ⟨hstarted, List.forall_mem_append.mpr ⟨hbehind, ?_⟩,
      List.pairwise_append.mpr ⟨h.increasing, List.pairwise_singleton _ _, ?_⟩⟩
    · rw [List.forall_mem_singleton]
      exact ⟨_, Edit.stamp?_cell _ edit, d.kept ▸ Int64.le_refl _⟩
    · intro cell hm written hw
      obtain ⟨stamp, hs, hless⟩ := hreached cell hm
      rw [List.mem_singleton.mp hw, Version.Older, hs, Edit.stamp?_cell]
      exact hless

theorem IsStamped.run (h : j.IsStamped) {occasions : List Occasion}
    (hr : j.clock.HasRoomFor (occasions.map Occasion.millis)) : (j.run occasions).IsStamped := by
  induction occasions generalizing j with
  | nil => exact h
  | cons occasion occasions ih =>
    obtain ⟨hfirst, hrest⟩ := hr
    refine ih (j := j.perform occasion) (h.perform occasion.edit hfirst) ?_
    obtain ⟨millis, _ | edit⟩ := occasion <;> exact hrest

/-! ### Exact accounts -/

/-- A table that is the map of the edits made, with its size. -/
structure KeepsAccounts (j : Journal) (occasions : List Occasion) : Prop where
  recorded : j.writes = stamped {} occasions
  /-- Later writes are newer, as long as the stamps do not run out. -/
  increasing : Clock.HasRoomFor {} (occasions.map Occasion.millis) →
    j.writes.Pairwise fun a b => a.version.Older b.version
  get : ∀ key, j.buffer.get? key = lastWrite? key j.writes
  walk : ∀ first, ∃ cells, Ascending cells ∧
    (∀ cell, cell ∈ cells ↔
      lastWrite? cell.key j.writes = some cell.version ∧ ¬ cell.key < first) ∧
    ∀ n, (Buffer.Cursor.mk (.atLeast first) false).visit j.buffer n = cells[n]?
  length : j.buffer.cells.length = (writtenKeys j.writes).length
  size : j.buffer.size =
    ((writtenKeys j.writes).map fun key => bytesUnder key (lastWrite? key j.writes)).sum
  /-- What the next write may take off the size is part of it. -/
  covered : ∀ key previous, lastWrite? key j.writes = some previous →
    previous.payloadSize ≤ j.buffer.size

/-- Whatever is done to a fresh table and whenever, it keeps its accounts. -/
theorem run_keepsAccounts (filterBits : Nat) (occasions : List Occasion) :
    ((start filterBits).run occasions).KeepsAccounts occasions := by
  have h : ((start filterBits).run occasions).buffer.Holds
      ((start filterBits).run occasions).writes :=
    holds_run (Buffer.holds_empty filterBits) occasions
  refine ⟨(start filterBits).writes_run occasions,
    fun hr => ((isStamped_start filterBits).run hr).increasing, fun key => ?_, h.walk, h.length_eq,
    h.size_eq, fun key previous hl => ?_⟩
  · rw [h.sound.get?, h.contents]
  · have hle := bytesUnder_lookup_le key ((start filterBits).run occasions).buffer.cells
    rw [h.contents, hl, bytesUnder_some, ← h.size] at hle
    omega

/-- A key is written over with less, removed and written again, and another one is removed that was
never there, while other tables draw stamps too and the wall clock steps back. -/
theorem keepsAccounts_of_overwrites :
    let occasions : List Occasion :=
      [⟨5, some (.upsert [107] [49, 50, 51, 52, 53])⟩, ⟨5, none⟩, ⟨4, some (.upsert [107] [49, 50])⟩,
        ⟨4, some (.remove [107])⟩, ⟨-1, none⟩, ⟨4, some (.upsert [107] [97, 98, 99, 100])⟩,
        ⟨9, some (.remove [102, 114, 101, 115, 104])⟩]
    Clock.HasRoomFor {} (occasions.map Occasion.millis) ∧
      ((start 64).run occasions).KeepsAccounts occasions ∧
      ((start 64).run occasions).buffer.size = 10 :=
  ⟨Clock.hasRoomFor_of_le (by decide) (by simp) (by decide), run_keepsAccounts 64 _,
    by decide +kernel⟩

end Journal

end TableStore

import TableStore.Filter

/-! A memory table: the newest version of every key written to it, in ascending order of keys,
a filter over those keys, and the number of key and payload bytes it holds. A write puts its
version over an older one and accounts for the difference of their payloads. -/

namespace TableStore

structure Buffer where
  cells : List Cell
  filter : Filter
  /-- Key and payload bytes held. -/
  size : Nat
  deriving DecidableEq

/-- Where a cursor starts: at a key, or behind it. -/
inductive Bound
  | atLeast (key : Bytes)
  | above (key : Bytes)
  deriving DecidableEq

namespace Bound

/-- The keys from a bound on. -/
def Admits : Bound → Bytes → Prop
  | atLeast start, key => ¬ key < start
  | above start, key => start < key

instance (bound : Bound) (key : Bytes) : Decidable (bound.Admits key) := by
  unfold Admits
  split <;> infer_instance

end Bound

namespace Buffer

def empty (filterBits : Nat) : Buffer := ⟨[], Filter.empty filterBits, 0⟩

def isEmpty (b : Buffer) : Bool := b.cells.isEmpty

/-! ### Writing -/

/-- Puts a cell in its place, or over the one with the same key. -/
def place (cell : Cell) : List Cell → List Cell
  | [] => [cell]
  | c :: rest =>
    if c.key < cell.key then c :: place cell rest
    else if cell.key < c.key then cell :: c :: rest
    else cell :: rest

theorem mem_place {cell : Cell} {l : List Cell} {c : Cell} (h : c ∈ place cell l) :
    c = cell ∨ c ∈ l := by
  induction l with
  | nil => simpa [place] using h
  | cons a rest ih =>
    unfold place at h
    split at h
    · rcases List.mem_cons.mp h with h | h
      · exact Or.inr (h ▸ List.mem_cons_self)
      · exact (ih h).imp id (List.mem_cons_of_mem _)
    · split at h
      · exact List.mem_cons.mp h
      · exact (List.mem_cons.mp h).imp id (List.mem_cons_of_mem _)

theorem ascending_place (cell : Cell) {l : List Cell} (h : Ascending l) :
    Ascending (place cell l) := by
  induction l with
  | nil => exact List.pairwise_singleton _ _
  | cons a rest ih =>
    obtain ⟨ha, hr⟩ := List.pairwise_cons.mp h
    unfold place
    split
    · rename_i hl
      refine List.pairwise_cons.mpr ⟨fun c hc => ?_, ih hr⟩
      rcases mem_place hc with rfl | hc
      · exact hl
      · exact ha c hc
    · rename_i hl
      split
      · rename_i hg
        refine List.pairwise_cons.mpr ⟨fun c hc => ?_, h⟩
        rcases List.mem_cons.mp hc with rfl | hc
        · exact hg
        · exact List.lt_trans hg (ha c hc)
      · rename_i hg
        exact List.pairwise_cons.mpr ⟨fun c hc => eq_of_not_lt_of_not_lt hl hg ▸ ha c hc, hr⟩

theorem lookup_place (cell : Cell) (l : List Cell) (key : Bytes) :
    lookup key (place cell l) =
      if cell.key = key then some cell.version else lookup key l := by
  induction l with
  | nil => rw [place, lookup_cons]
  | cons a rest ih =>
    unfold place
    split
    · rename_i hl
      rw [lookup_cons, ih, lookup_cons]
      split
      · rename_i he
        rw [if_neg (fun hc => absurd (he.trans hc.symm ▸ hl) (List.lt_irrefl _))]
      · rfl
    · split
      · rw [lookup_cons]
      · rename_i hl hg
        rw [lookup_cons, lookup_cons, eq_of_not_lt_of_not_lt hl hg]
        split <;> rfl

/-- The size after `version` is written under `key`: a new key counts with its payload, an
old one with the difference of payloads. -/
def sizeAfter (b : Buffer) (key : Bytes) (version : Version) : Nat :=
  match lookup key b.cells with
  | none => b.size + (key.length + version.payloadSize)
  | some previous =>
    if previous.payloadSize ≤ version.payloadSize then
      b.size + (version.payloadSize - previous.payloadSize)
    else b.size - (previous.payloadSize - version.payloadSize)

def write (b : Buffer) (cell : Cell) : Buffer where
  cells := place cell b.cells
  filter := b.filter.insert cell.key
  size := b.sizeAfter cell.key cell.version

/-! ### Reading -/

/-- The version stored under a key. The filter is asked first. -/
def get? (b : Buffer) (key : Bytes) : Option Version :=
  if b.filter.mayContain key then lookup key b.cells else none

/-- The cells from a bound on. -/
def cellsFrom (b : Buffer) (bound : Bound) : List Cell :=
  b.cells.filter fun c => bound.Admits c.key

/-- The first cell from a bound on. -/
def first? (b : Buffer) (bound : Bound) : Option Cell :=
  b.cells.find? fun c => bound.Admits c.key

/-- A cursor that finds its place by key, so that it stays valid while the table changes. It
ends for good when it first finds no cell. -/
structure Cursor where
  bound : Bound
  ended : Bool := false

def Cursor.next (cursor : Cursor) (b : Buffer) : Option Cell × Cursor :=
  if cursor.ended then (none, cursor)
  else
    match b.first? cursor.bound with
    | some cell => (some cell, { cursor with bound := .above cell.key })
    | none => (none, { cursor with ended := true })

theorem length_cellsFrom_lt {b : Buffer} {bound : Bound} {cell : Cell}
    (h : b.first? bound = some cell) :
    (b.cellsFrom (.above cell.key)).length < (b.cellsFrom bound).length := by
  have hc : bound.Admits cell.key := by simpa using List.find?_some h
  have hmem : cell ∈ b.cells := List.mem_of_find?_eq_some h
  unfold cellsFrom
  have hsub : ∀ c : Cell, (Bound.above cell.key).Admits c.key → bound.Admits c.key := by
    intro c hlt
    cases bound with
    | atLeast start =>
      intro hs
      exact hc (List.lt_trans hlt hs)
    | above start => exact List.lt_trans hc hlt
  have key : ∀ l : List Cell,
      (l.filter fun c => (Bound.above cell.key).Admits c.key).length ≤
        (l.filter fun c => bound.Admits c.key).length ∧
      (cell ∈ l → (l.filter fun c => (Bound.above cell.key).Admits c.key).length <
        (l.filter fun c => bound.Admits c.key).length) := by
    intro l
    induction l with
    | nil => simp
    | cons c rest ih =>
      have hself : ¬ (Bound.above cell.key).Admits cell.key := List.lt_irrefl cell.key
      by_cases ha : (Bound.above cell.key).Admits c.key
      · have hb := hsub c ha
        simp only [List.filter_cons, ha, hb, decide_true, if_true, List.length_cons]
        refine ⟨by omega, fun hm => ?_⟩
        rcases List.mem_cons.mp hm with rfl | hm
        · exact absurd ha hself
        · have := ih.2 hm
          omega
      · by_cases hb : bound.Admits c.key
        · simp only [List.filter_cons, ha, hb, decide_true, decide_false, if_true,
            Bool.false_eq_true, if_false, List.length_cons]
          exact ⟨by omega, fun _ => by omega⟩
        · simp only [List.filter_cons, ha, hb, decide_false, Bool.false_eq_true, if_false]
          refine ⟨ih.1, fun hm => ?_⟩
          rcases List.mem_cons.mp hm with rfl | hm
          · exact absurd hc hb
          · exact ih.2 hm
  exact (key b.cells).2 hmem

end Buffer

end TableStore

import TableStore.Proofs.Memory.Cursors
import TableStore.Proofs.Store.Reading

/-! Range cursors while the memory changes. What a cursor has still to read are ascending cells,
those of the tables as they were when it was opened and those of memory as they are now. A step
takes cells off the front until it meets a live one; a write puts its cell among them, in its
order and behind the first, or leaves them alone. -/

namespace TableStore

variable {m m' : Memory} {written : Option Cell}

/-! ### The sources of a cursor -/

namespace RangeSource

/-- A source in a state that follows a cell: it has cells behind that one, or it is a cursor over
memory with all lanes behind it. -/
def Follows (m : Memory) (head : Cell) : RangeSource → Prop
  | table items => ∃ cells, items = cells.map .ok ∧ Ascending (head :: cells)
  | memory cursor => Merge.Ahead m.Follows head cursor

theorem pull_memory (m : Memory) (cursor : Merge BufferPlace) :
    (feed m).pull (.memory cursor) =
      (cursor.pull m.feed).map fun step => (step.1, .memory step.2) := rfl

theorem cells_memory (m : Memory) (cursor : Merge BufferPlace) :
    (feed m).cells (.memory cursor) = (Merge.toFeed m.feed).cells cursor := by
  rw [Feed.cells, toList_memory, Feed.cells]

theorem ascends_feed (m : Memory) : (feed m).Ascends (Follows m) := by
  rintro head (items | cursor) h
  · obtain ⟨cells, rfl, ha⟩ := h
    cases cells with
    | nil => exact Or.inl rfl
    | cons cell rest =>
      exact Or.inr ⟨cell, .table (rest.map .ok), rfl, ha.head_lt List.mem_cons_self, rest, rfl,
        ha.tail⟩
  · rw [pull_memory]
    rcases Merge.ascends_toFeed m.ascends_feed head cursor h with hp | ⟨cell, next, hp, hlt, hn⟩
    · exact Or.inl (Option.map_eq_none_iff.mpr hp)
    · exact Or.inr ⟨cell, .memory next, Option.map_eq_some_iff.mpr ⟨_, hp, rfl⟩, hlt, hn⟩

theorem opens_table (m : Memory) {cells : List Cell} (h : Ascending cells) :
    (feed m).Opens (Follows m) (.table (cells.map .ok)) := by
  cases cells with
  | nil => exact Or.inl rfl
  | cons cell rest => exact Or.inr ⟨cell, .table (rest.map .ok), rfl, rest, rfl, h⟩

theorem opens_memory {cursor : Merge BufferPlace} (h : cursor.Follows m.Follows) :
    (feed m).Opens (Follows m) (.memory cursor) := by
  rw [Feed.Opens, pull_memory]
  rcases h.opens m.ascends_feed with hp | ⟨cell, next, hp, hn⟩
  · exact Or.inl (Option.map_eq_none_iff.mpr hp)
  · exact Or.inr ⟨cell, .memory next, Option.map_eq_some_iff.mpr ⟨_, hp, rfl⟩, hn⟩

/-- The sources go on while the memory changes, those on disk as they are. -/
theorem carries_feed (h : m.Carries m' written) :
    (feed m).Carries (feed m') written (Follows m) (Follows m') := by
  rintro head (items | cursor) hf
  · refine ⟨hf, fun _ => ?_⟩
    rw [Feed.cells, Feed.cells, toList_table, toList_table]
    exact Grows.refl _ _
  · rw [cells_memory, cells_memory]
    exact Merge.carries_toFeed m.ascends_feed m'.ascends_feed h.feed head cursor hf

end RangeSource

/-! ### The cells ahead of a cursor -/

namespace RangeCursor

variable {cursor : RangeCursor} {merge : Merge RangeSource} {limit : Option Bytes}

/-- All lanes of a cursor follow their heads. -/
def IsSound (m : Memory) (cursor : RangeCursor) : Prop :=
  cursor.merge.Follows (RangeSource.Follows m)

/-- The cells that a cursor has still to read, with the memory tables as they are now. -/
def ahead (m : Memory) (cursor : RangeCursor) : List Cell :=
  if cursor.ended then [] else (Merge.toFeed (RangeSource.feed m)).cells cursor.merge

theorem IsSound.ascending (h : cursor.IsSound m) : Ascending (cursor.ahead m) := by
  unfold ahead
  split
  · exact List.Pairwise.nil
  · exact (Merge.Follows.toList (RangeSource.ascends_feed m) h).2.1

/-- The cells ahead while the memory changes. -/
theorem IsSound.carried (h : cursor.IsSound m) (hm : m.Carries m' written) :
    cursor.IsSound m' ∧ (IsNews written (cursor.ahead m) →
      Grows written (cursor.ahead m) (cursor.ahead m')) := by
  have hmerge := Merge.Follows.grows (RangeSource.ascends_feed m) (RangeSource.ascends_feed m')
    (RangeSource.carries_feed hm) h
  refine ⟨hmerge.1, ?_⟩
  unfold ahead
  split
  · exact fun _ => Grows.refl _ _
  · exact hmerge.2

/-- What a step makes of the cells ahead: it takes those in front of the first live one below the
limit and yields that one, or there is none. -/
inductive StepsTo (limit : Option Bytes) (cells : List Cell) :
    Option (Except Fault (Bytes × Bytes)) → List Cell → Prop
  | yields {skipped rest : List Cell} {cell : Cell} {data : Bytes} :
    cells = skipped ++ cell :: rest → (∀ c ∈ skipped, c.version.data? = none) →
    (∀ l ∈ limit, cell.key < l) → cell.version.data? = some data →
    StepsTo limit cells (some (.ok (cell.key, data))) rest
  | ends : (∀ c ∈ cells, (∀ l ∈ limit, c.key < l) → c.version.data? = none) →
    StepsTo limit cells none []

theorem stepsTo_advance (limit : Option Bytes) (h : merge.Follows (RangeSource.Follows m)) :
    (advance m limit merge).2.IsSound m ∧ (advance m limit merge).2.limit = limit ∧
      StepsTo limit ((Merge.toFeed (RangeSource.feed m)).cells merge) (advance m limit merge).1
        ((advance m limit merge).2.ahead m) := by
  fun_induction advance m limit merge with
  | case1 merge hp =>
    have hnil : (Merge.toFeed (RangeSource.feed m)).cells merge = [] := Feed.cells_of_pull_none hp
    refine ⟨h, rfl, ?_⟩
    show StepsTo limit _ none ((Merge.toFeed (RangeSource.feed m)).cells merge)
    rw [hnil]
    exact .ends (by simp)
  | case2 merge fault next hp =>
    obtain ⟨-, cell, he⟩ := h.of_pull (RangeSource.ascends_feed m) hp
    simp at he
  | case3 merge cell next hp hl =>
    refine ⟨(h.of_pull (RangeSource.ascends_feed m) hp).1, rfl, .ends fun c hc hlt => ?_⟩
    rw [any_not_lt_iff] at hl
    refine absurd (fun l hlim => ?_) hl
    have hasc := (h.toList (RangeSource.ascends_feed m)).2.1
    rw [Feed.cells_of_pull_ok (f := Merge.toFeed (RangeSource.feed m)) hp] at hc hasc
    rcases List.mem_cons.mp hc with rfl | hc
    · exact hlt l hlim
    · exact List.lt_trans (hasc.head_lt hc) (hlt l hlim)
  | case4 merge cell next hp hl stamp data hv =>
    rw [any_not_lt_iff, not_not] at hl
    have hs : (Merge.toFeed (RangeSource.feed m)).cells merge =
        [] ++ cell :: (Merge.toFeed (RangeSource.feed m)).cells next := Feed.cells_of_pull_ok hp
    refine ⟨(h.of_pull (RangeSource.ascends_feed m) hp).1, rfl, ?_⟩
    exact .yields hs (by simp) hl (by rw [hv]; rfl)
  | case5 merge cell next hp hl hv ih =>
    obtain ⟨hsound, hlimit, hsteps⟩ := ih (h.of_pull (RangeSource.ascends_feed m) hp).1
    have hdead : cell.version.data? = none := by
      cases hc : cell.version with
      | present stamp data => exact absurd hc (hv stamp data)
      | tombstone | absent => rfl
    refine ⟨hsound, hlimit, ?_⟩
    rw [Feed.cells_of_pull_ok (f := Merge.toFeed (RangeSource.feed m)) hp]
    generalize (advance m limit next).1 = answer at hsteps
    generalize (advance m limit next).2.ahead m = rest at hsteps
    cases hsteps with
    | @yields skipped rest live _ hs hskipped hlt hlive =>
      have hall : cell :: (Merge.toFeed (RangeSource.feed m)).cells next =
          (cell :: skipped) ++ live :: rest := congrArg (cell :: ·) hs
      refine .yields hall ?_ hlt hlive
      rintro c (_ | ⟨_, hc⟩)
      · exact hdead
      · exact hskipped c hc
    | ends hall =>
      refine .ends fun c hc hlt => ?_
      rcases List.mem_cons.mp hc with rfl | hc
      · exact hdead
      · exact hall c hc hlt

theorem IsSound.next (h : cursor.IsSound m) :
    (cursor.next m).2.IsSound m ∧ (cursor.next m).2.limit = cursor.limit ∧
      StepsTo cursor.limit (cursor.ahead m) (cursor.next m).1 ((cursor.next m).2.ahead m) := by
  unfold RangeCursor.next
  by_cases he : cursor.ended = true
  · have hnil : cursor.ahead m = [] := if_pos he
    rw [if_pos he]
    refine ⟨h, rfl, ?_⟩
    rw [hnil]
    exact .ends (by simp)
  · have hcells : cursor.ahead m = (Merge.toFeed (RangeSource.feed m)).cells cursor.merge :=
      if_neg he
    rw [if_neg he, hcells]
    exact stepsTo_advance cursor.limit h

end RangeCursor

/-! ### Opening a cursor -/

/-- A cursor that is opened has the newest versions ahead of it, those from its start on. -/
theorem Store.IsSound.exists_cursor {s : Store} (h : s.IsSound) (ho : s.memory.IsOrdered)
    (start : Bytes) (limit : Option Bytes) :
    ∃ cursor, s.range start limit = .ok cursor ∧ cursor.limit = limit ∧
      cursor.IsSound s.memory ∧ ∀ key, lookup key (cursor.ahead s.memory) =
        if key < start then none else Version.newest? (s.versionsOnDisk key ++
          (Version.newest? (s.memory.versions key)).toList) := by
  obtain ⟨cells, hmerge, -, hlook⟩ := h.mergeLists_scans start
  refine ⟨_, range_of_scans (h.mapM_scan start) limit, rfl, ?_, ?_⟩
  · refine Merge.follows_start fun source hm => ?_
    rw [List.mem_append, List.mem_singleton] at hm
    rcases hm with hm | rfl
    · rw [List.map_map] at hm
      obtain ⟨scan, hs, rfl⟩ := List.mem_map.mp hm
      obtain ⟨t, ht, rfl⟩ := List.mem_map.mp hs
      exact RangeSource.opens_table _ ((h.tables t ht).ascending.filter _)
    · exact RangeSource.opens_memory (ho.follows_cursor start)
  · intro key
    rw [← hlook, RangeCursor.ahead, if_neg (by simp), Feed.cells, toList_merge, hmerge,
      readable_map_ok]

end TableStore

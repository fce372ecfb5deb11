import TableStore.Proofs.Generations
import TableStore.Proofs.Memory.Cursors
import TableStore.Proofs.Merge.Regrouped
import TableStore.Proofs.Outcome
import TableStore.Proofs.Table.Contents
import TableStore.Store.Read

/-! What reading a store finds when its tables are sound. The version of a key is the newest of the
versions that the tables hold, those in memory first and then those on disk in order of their
generations; a range yields exactly the live pairs of the newest versions, those on disk first.
The two orders differ only where memory and disk hold versions of one age. -/

namespace TableStore

/-! ### Lists of live pairs -/

/-- The live pairs of a view from `start` on and below `limit`, in ascending order of keys. -/
structure IsRangeOf (view : Bytes → Version) (start : Bytes) (limit : Option Bytes)
    (pairs : List (Bytes × Bytes)) : Prop where
  ascending : pairs.Pairwise fun a b => a.1 < b.1
  mem_iff : ∀ key data, (key, data) ∈ pairs ↔
    ¬ key < start ∧ (∀ l ∈ limit, key < l) ∧ (view key).data? = some data

/-- A view has one list of live pairs between two bounds. -/
theorem IsRangeOf.unique {view : Bytes → Version} {start : Bytes} {limit : Option Bytes}
    {a b : List (Bytes × Bytes)} (ha : IsRangeOf view start limit a)
    (hb : IsRangeOf view start limit b) : a = b := by
  have hmem : ∀ pair, pair ∈ a ↔ pair ∈ b := by
    rintro ⟨key, data⟩
    rw [ha.mem_iff, hb.mem_iff]
  exact eq_of_pairwise_of_mem_iff (fun p q hpq hqp => List.lt_irrefl _ (List.lt_trans hpq hqp))
    ha.ascending hb.ascending hmem

/-- The pairs of the cells that are live and below the limit. -/
def livePairs (limit : Option Bytes) : List Cell → List (Bytes × Bytes)
  | [] => []
  | cell :: rest =>
    if limit.any fun l => ¬ cell.key < l then []
    else
      match cell.version with
      | .present _ data => (cell.key, data) :: livePairs limit rest
      | _ => livePairs limit rest

theorem any_not_lt_iff {limit : Option Bytes} {key : Bytes} :
    (limit.any fun l => ¬ key < l) = true ↔ ¬ ∀ l ∈ limit, key < l := by
  cases limit <;> simp

theorem mem_livePairs {limit : Option Bytes} {cells : List Cell} (h : Ascending cells)
    {key data : Bytes} :
    (key, data) ∈ livePairs limit cells ↔ (∀ l ∈ limit, key < l) ∧
      ∃ version, ⟨key, version⟩ ∈ cells ∧ version.data? = some data := by
  induction cells with
  | nil => simp [livePairs]
  | cons cell rest ih =>
    unfold livePairs
    by_cases hl : ∀ l ∈ limit, cell.key < l
    · have hin : ¬ (limit.any fun l => ¬ cell.key < l) = true := by
        rw [any_not_lt_iff]
        exact not_not_intro hl
      rw [if_neg hin]
      obtain ⟨own, version⟩ := cell
      cases version with
      | present stamp payload =>
        dsimp only
        rw [List.mem_cons, ih h.tail]
        constructor
        · rintro (he | ⟨hlt, version, hm, hd⟩)
          · rw [Prod.mk.injEq] at he
            obtain ⟨rfl, rfl⟩ := he
            exact ⟨hl, _, List.mem_cons_self, rfl⟩
          · exact ⟨hlt, version, List.mem_cons_of_mem _ hm, hd⟩
        · rintro ⟨hlt, version, hm, hd⟩
          rcases List.mem_cons.mp hm with he | hm
          · rw [Cell.mk.injEq] at he
            obtain ⟨rfl, rfl⟩ := he
            rw [Version.data?, Option.some.injEq] at hd
            exact Or.inl (by rw [hd])
          · exact Or.inr ⟨hlt, version, hm, hd⟩
      | tombstone | absent =>
        dsimp only
        rw [ih h.tail]
        refine and_congr_right fun _ => exists_congr fun version => and_congr_left fun hd => ?_
        rw [List.mem_cons, Cell.mk.injEq]
        constructor
        · exact Or.inr
        · rintro (⟨-, rfl⟩ | hm)
          · simp [Version.data?] at hd
          · exact hm
    · rw [if_pos (any_not_lt_iff.mpr hl)]
      constructor
      · simp
      · rintro ⟨hlt, version, hm, -⟩
        refine absurd (fun l hlim => ?_) hl
        rcases List.mem_cons.mp hm with he | hm
        · rw [← he]
          exact hlt l hlim
        · exact List.lt_trans (h.head_lt hm) (hlt l hlim)

theorem ascending_livePairs {limit : Option Bytes} {cells : List Cell} (h : Ascending cells) :
    (livePairs limit cells).Pairwise fun a b => a.1 < b.1 := by
  induction cells with
  | nil => exact List.Pairwise.nil
  | cons cell rest ih =>
    unfold livePairs
    split
    · exact List.Pairwise.nil
    · split
      · refine List.pairwise_cons.mpr ⟨?_, ih h.tail⟩
        rintro ⟨key, data⟩ hm
        obtain ⟨-, version, hm, -⟩ := (mem_livePairs h.tail).mp hm
        exact h.head_lt hm
      · exact ih h.tail

/-! ### Range cursors -/

namespace RangeCursor

/-- What a cursor makes of the items of its merge: faults are passed on, cells that are not live
are left out, and the first cell past the limit ends it. -/
def answers (limit : Option Bytes) : List Item → List (Except Fault (Bytes × Bytes))
  | [] => []
  | .error fault :: rest => .error fault :: answers limit rest
  | .ok cell :: rest =>
    if limit.any fun l => ¬ cell.key < l then []
    else
      match cell.version with
      | .present _ data => .ok (cell.key, data) :: answers limit rest
      | _ => answers limit rest

theorem answers_ok (limit : Option Bytes) (cells : List Cell) :
    answers limit (cells.map .ok) = (livePairs limit cells).map .ok := by
  induction cells with
  | nil => rfl
  | cons cell rest ih =>
    rw [List.map_cons, answers, livePairs]
    split
    · rfl
    · split
      · rw [ih]
        rfl
      · exact ih

variable {m : Memory} {limit : Option Bytes} {merge : Merge RangeSource}

/-- A step that answers leaves a cursor that has not ended. -/
theorem advance_of_some {answer : Except Fault (Bytes × Bytes)} {next : RangeCursor}
    (h : advance m limit merge = (some answer, next)) :
    next.limit = limit ∧ next.ended = false ∧
      answers limit ((Merge.toFeed (RangeSource.feed m)).toList merge) =
        answer :: answers limit ((Merge.toFeed (RangeSource.feed m)).toList next.merge) := by
  fun_induction advance m limit merge with
  | case1 => simp at h
  | case2 merge fault rest hp =>
    have hpull : (Merge.toFeed (RangeSource.feed m)).pull merge = some (.error fault, rest) := hp
    simp only [Prod.mk.injEq, Option.some.injEq] at h
    obtain ⟨rfl, rfl⟩ := h
    exact ⟨rfl, rfl, by rw [Feed.toList_of_pull_some hpull, answers]⟩
  | case3 => simp at h
  | case4 merge cell rest hp hl stamp data hv =>
    have hpull : (Merge.toFeed (RangeSource.feed m)).pull merge = some (.ok cell, rest) := hp
    simp only [Prod.mk.injEq, Option.some.injEq] at h
    obtain ⟨rfl, rfl⟩ := h
    exact ⟨rfl, rfl, by rw [Feed.toList_of_pull_some hpull, answers, if_neg hl, hv]⟩
  | case5 merge cell rest hp hl hv ih =>
    have hpull : (Merge.toFeed (RangeSource.feed m)).pull merge = some (.ok cell, rest) := hp
    obtain ⟨hlim, hend, hlist⟩ := ih h
    refine ⟨hlim, hend, ?_⟩
    rw [← hlist, Feed.toList_of_pull_some hpull, answers, if_neg hl]
    split
    · rename_i stamp data hd
      exact absurd hd (hv stamp data)
    · rfl

theorem advance_of_none {next : RangeCursor} (h : advance m limit merge = (none, next)) :
    answers limit ((Merge.toFeed (RangeSource.feed m)).toList merge) = [] := by
  fun_induction advance m limit merge with
  | case1 merge hp =>
    have hpull : (Merge.toFeed (RangeSource.feed m)).pull merge = none := hp
    rw [Feed.toList_of_pull_none hpull, answers]
  | case2 => simp at h
  | case3 merge cell rest hp hl =>
    have hpull : (Merge.toFeed (RangeSource.feed m)).pull merge = some (.ok cell, rest) := hp
    rw [Feed.toList_of_pull_some hpull, answers, if_pos hl]
  | case4 => simp at h
  | case5 merge cell rest hp hl hv ih =>
    have hpull : (Merge.toFeed (RangeSource.feed m)).pull merge = some (.ok cell, rest) := hp
    rw [← ih h, Feed.toList_of_pull_some hpull, answers, if_neg hl]
    split
    · rename_i stamp data hd
      exact absurd hd (hv stamp data)
    · rfl

/-- All that a cursor yields is made of the items of its merge. -/
theorem toList_eq {cursor : RangeCursor} (h : cursor.ended = false) :
    cursor.toList m =
      answers cursor.limit ((Merge.toFeed (RangeSource.feed m)).toList cursor.merge) := by
  fun_induction toList m cursor with
  | case1 cursor he => simp [he] at h
  | case2 cursor he next ha => exact (advance_of_none ha).symm
  | case3 cursor he answer next ha ih =>
    obtain ⟨hlim, hend, hlist⟩ := advance_of_some ha
    rw [ih hend, hlist, hlim]

/-- The next call of a cursor answers with the first of all that it still yields. -/
theorem next_of_toList {cursor : RangeCursor} {answer : Except Fault (Bytes × Bytes)}
    {rest : List (Except Fault (Bytes × Bytes))} (h : cursor.toList m = answer :: rest) :
    (cursor.next m).1 = some answer := by
  rw [toList] at h
  by_cases he : cursor.ended = true
  · simp [he] at h
  · rw [if_neg he] at h
    rw [next, if_neg he]
    split at h
    · simp at h
    · rename_i first next ha
      rw [ha, (List.cons.inj h).1]

end RangeCursor

/-! ### The sources of a range -/

theorem RangeSource.toList_table (m : Memory) (items : List Item) :
    (RangeSource.feed m).toList (.table items) = items := by
  have hseen : Feed.ofList.SeenAs (RangeSource.feed m) RangeSource.table := by
    intro items
    cases items <;> rfl
  rw [hseen.toList_eq, Feed.toList_ofList]

theorem RangeSource.toList_memory (m : Memory) (cursor : Merge BufferPlace) :
    (RangeSource.feed m).toList (.memory cursor) = (Merge.toFeed m.feed).toList cursor := by
  have hseen : (Merge.toFeed m.feed).SeenAs (RangeSource.feed m) RangeSource.memory :=
    fun _ => rfl
  exact hseen.toList_eq cursor

namespace Version

theorem exists_newest?_data {versions : List Version} {data : Bytes} :
    (∃ v, newest? versions = some v ∧ v.data? = some data) ↔
      (newest versions).data? = some data := by
  cases versions with
  | nil => simp [newest?, data?]
  | cons v versions => simp [newest?]

theorem newest_append_newest? (front back : List Version) :
    newest (front ++ (newest? back).toList) = newest (front ++ back) := by
  rw [newest_append, newest_append]
  congr 1
  cases back with
  | nil => rfl
  | cons v back => simp [newest?]

end Version

/-! ### Merged views -/

/-- What tables with these cells under their generations show of a key: the newest of their
versions, among equals that of the greatest generation. -/
def mergedView (contents : Generations (List Cell)) (key : Bytes) : Version :=
  Version.newest (contents.values.filterMap (lookup key))

/-! ### Sound stores -/

namespace Store

/-- The cells of the registered tables. -/
def contents (s : Store) : Generations (List Cell) := s.tables.map Table.cells

/-- The versions that the registered tables hold for a key, oldest generation first. -/
def versionsOnDisk (s : Store) (key : Bytes) : List Version :=
  s.tables.values.filterMap fun t => lookup key t.cells

theorem versionsOnDisk_eq (s : Store) (key : Bytes) :
    s.versionsOnDisk key = s.contents.values.filterMap (lookup key) := by
  rw [contents, Generations.values_map, List.filterMap_map]
  rfl

theorem mem_versionsOnDisk_iff {s : Store} {key : Bytes} {v : Version} : v ∈ s.versionsOnDisk key ↔
    ∃ generation t, s.tables.find? generation = some t ∧ lookup key t.cells = some v := by
  simp only [versionsOnDisk, List.mem_filterMap, Generations.mem_values_iff]
  constructor
  · rintro ⟨t, ⟨generation, ht⟩, hl⟩
    exact ⟨generation, t, ht, hl⟩
  · rintro ⟨generation, t, ht, hl⟩
    exact ⟨t, ⟨generation, ht⟩, hl⟩

/-- A table of a fresh generation puts its version of a key among those of the others. -/
theorem versionsOnDisk_register {s : Store} {generation : UInt64} (t : Table)
    (hfresh : s.tables.find? generation = none) (key : Bytes) :
    ∃ front back, s.versionsOnDisk key = front ++ back ∧
      (s.register generation t).versionsOnDisk key =
        front ++ ((lookup key t.cells).toList ++ back) := by
  obtain ⟨front, back, hs, hi, -, -⟩ := s.tables.entries_insert_of_fresh t hfresh
  refine ⟨(front.map Prod.snd).filterMap fun t => lookup key t.cells,
    (back.map Prod.snd).filterMap fun t => lookup key t.cells, ?_, ?_⟩
  · rw [versionsOnDisk, Generations.values, hs, List.map_append, List.filterMap_append]
  · rw [versionsOnDisk, register, Generations.values]
    dsimp only
    rw [hi, List.map_append, List.filterMap_append, List.map_cons, List.filterMap_cons]
    cases lookup key t.cells <;> rfl

/-- All reads of a store are reads of a map: keys have their versions there, getting a key gives the
data if there are any, and ranges yield the live pairs. -/
structure Shows (s : Store) (map : Bytes → Version) : Prop where
  version : ∀ key, s.version key = .ok (map key)
  get : ∀ key, s.get key = .ok (map key).data?
  range : ∀ start limit, ∃ cursor pairs, s.range start limit = .ok cursor ∧
    cursor.toList s.memory = pairs.map .ok ∧ IsRangeOf map start limit pairs

/-- All readable tables of a store are sound. -/
structure IsSound (s : Store) : Prop where
  memory : s.memory.IsSound
  tables : ∀ t ∈ s.tables.values, t.IsSound

theorem filterMap_find? (key : Bytes) (tables : List Table) :
    (tables.map fun t => t.cells.find? fun c => c.key == key).filterMap (·.map Cell.version) =
      tables.filterMap fun t => lookup key t.cells := by
  rw [List.filterMap_map]
  rfl

/-- Sound tables are all looked up without a fault. -/
theorem mapM_get? {tables : List Table} (h : ∀ t ∈ tables, t.IsSound) (key : Bytes) :
    tables.mapM (·.get? key) = .ok (tables.map fun t => t.cells.find? fun c => c.key == key) := by
  rw [mapM_eq_ok, List.map_map]
  exact List.map_congr_left fun t ht => (h t ht).get? key

/-- The version of a key is the newest one in memory and on disk. -/
theorem IsSound.version {s : Store} (h : s.IsSound) (key : Bytes) :
    s.version key =
      .ok (Version.newest (Version.newest (s.memory.versions key) :: s.versionsOnDisk key)) := by
  rw [Store.version, mapM_get? h.tables]
  simp only [ok_bind, pure_eq_ok]
  rw [filterMap_find?, Memory.get_eq h.memory.buffers]
  rfl

/-- A version that is read is not older than any that a sound table holds. -/
theorem not_older_of_version {s : Store} {key : Bytes} {found held : Version} {t : Table}
    (hv : s.version key = .ok found) (hm : t ∈ s.tables.values) (ht : t.IsSound)
    (hl : lookup key t.cells = some held) : ¬ found.Older held := by
  obtain ⟨cells, hc, he⟩ := bind_eq_ok.mp hv
  rw [pure_eq_ok, Except.ok.injEq] at he
  rw [← he]
  apply Version.not_newest_older
  have hfound : t.cells.find? (fun c => c.key == key) ∈ cells :=
    mem_of_mapM_eq_ok hc hm (ht.get? key)
  exact List.mem_cons_of_mem _ (List.mem_filterMap.mpr ⟨_, hfound, hl⟩)

/-- A range merges the scans of the tables with a cursor over memory. -/
theorem range_of_scans {s : Store} {start : Bytes} {scans : List (List Item)}
    (h : s.tables.values.mapM (·.scan start) = .ok scans) (limit : Option Bytes) :
    s.range start limit = .ok ⟨Merge.start (RangeSource.feed s.memory)
      (scans.map RangeSource.table ++ [.memory (s.memory.cursor start)]), limit, false⟩ := by
  rw [range, h]
  rfl

/-- What it merges is read as the merge of the lists. -/
theorem toList_merge (m : Memory) (scans : List (List Item)) (cursor : Merge BufferPlace) :
    (Merge.toFeed (RangeSource.feed m)).toList (Merge.start (RangeSource.feed m)
      (scans.map RangeSource.table ++ [.memory cursor])) =
        mergeLists (scans ++ [(Merge.toFeed m.feed).toList cursor]) := by
  rw [Merge.toList_start, List.map_append, List.map_map, List.map_cons, List.map_nil,
    RangeSource.toList_memory]
  congr 2
  exact List.map_id'' (RangeSource.toList_table m) scans

/-- A range whose scans begin yields what the merge of the scans and of memory does. -/
theorem exists_range {s : Store} {start : Bytes} {scans : List (List Item)}
    (h : s.tables.values.mapM (·.scan start) = .ok scans) (limit : Option Bytes) :
    ∃ cursor, s.range start limit = .ok cursor ∧
      cursor.toList s.memory = RangeCursor.answers limit (mergeLists
        (scans ++ [(Merge.toFeed s.memory.feed).toList (s.memory.cursor start)])) :=
  ⟨_, range_of_scans h limit, by rw [RangeCursor.toList_eq rfl, toList_merge]⟩

/-- The scans of the tables from a key on. -/
def scans (s : Store) (start : Bytes) : List (List Cell) :=
  s.tables.values.map fun t => t.cells.filter fun c => ¬ c.key < start

theorem IsSound.mapM_scan {s : Store} (h : s.IsSound) (start : Bytes) :
    s.tables.values.mapM (·.scan start) = .ok ((s.scans start).map (List.map .ok)) := by
  rw [mapM_eq_ok, scans, List.map_map, List.map_map]
  exact List.map_congr_left fun t ht => (h.tables t ht).scan start

/-- The scans of sound tables and memory merge to the newest versions from a key on. -/
theorem IsSound.mergeLists_scans {s : Store} (h : s.IsSound) (start : Bytes) :
    ∃ cells, mergeLists ((s.scans start).map (List.map .ok) ++
        [(Merge.toFeed s.memory.feed).toList (s.memory.cursor start)]) = cells.map .ok ∧
      Ascending cells ∧ ∀ key, lookup key cells = if key < start then none else
        Version.newest? (s.versionsOnDisk key ++
          (Version.newest? (s.memory.versions key)).toList) := by
  obtain ⟨inMemory, hmemory, hmasc, hmlook⟩ := h.memory.toList_cursor start
  have hasc : ∀ cells ∈ s.scans start ++ [inMemory], Ascending cells := by
    intro cells hc
    rw [List.mem_append, List.mem_singleton] at hc
    rcases hc with hc | rfl
    · obtain ⟨t, ht, rfl⟩ := List.mem_map.mp hc
      exact (h.tables t ht).ascending.filter _
    · exact hmasc
  obtain ⟨cells, hmerge, hcells, hlook⟩ := mergeLists_ascending hasc
  rw [List.map_append, List.map_singleton, ← hmemory] at hmerge
  refine ⟨cells, hmerge, hcells, fun key => ?_⟩
  rw [hlook, List.filterMap_append, scans, filterMap_lookup_filter, List.filterMap_cons, hmlook]
  by_cases hk : key < start
  · simp [hk, Version.newest?]
  · simp only [if_neg hk, List.filterMap_nil]
    cases Version.newest? (s.memory.versions key) <;> rfl

/-- A range yields the live pairs of the newest versions, without faults. -/
theorem IsSound.range {s : Store} (h : s.IsSound) (start : Bytes) (limit : Option Bytes) :
    ∃ cursor pairs, s.range start limit = .ok cursor ∧
      cursor.toList s.memory = pairs.map .ok ∧
      IsRangeOf (fun key => Version.newest (s.versionsOnDisk key ++ s.memory.versions key))
        start limit pairs := by
  obtain ⟨cells, hmerge, hcells, hlook⟩ := h.mergeLists_scans start
  obtain ⟨cursor, hrange, hlist⟩ := exists_range (h.mapM_scan start) limit
  refine ⟨cursor, livePairs limit cells, hrange, ?_, ascending_livePairs hcells,
    fun key data => ?_⟩
  · rw [hlist, hmerge, RangeCursor.answers_ok]
  · rw [mem_livePairs hcells]
    simp only [← hcells.lookup_eq_some_iff, hlook]
    by_cases hk : key < start
    · simp [hk]
    · simp only [hk, if_false, not_false_eq_true, true_and, Version.exists_newest?_data,
        Version.newest_append_newest?]

/-- Memory is merged before a range merges it with the tables on disk, and that changes nothing: all
tables might as well be merged side by side. -/
theorem IsSound.range_sideBySide {s : Store} (h : s.IsSound) (start : Bytes)
    (limit : Option Bytes) : ∃ cursor, s.range start limit = .ok cursor ∧
      cursor.toList s.memory = RangeCursor.answers limit (mergeLists
        ((s.scans start ++ s.memory.tables.map fun b =>
          b.cells.filter fun c => ¬ c.key < start).map (List.map .ok))) := by
  obtain ⟨cursor, hrange, hlist⟩ := exists_range (h.mapM_scan start) limit
  refine ⟨cursor, hrange, hlist.trans (congrArg _ ?_)⟩
  have hasc : ∀ cells ∈ s.scans start ++ ((s.memory.tables.map fun b =>
      b.cells.filter fun c => ¬ c.key < start) ++ []), Ascending cells := by
    rw [List.append_nil]
    refine List.forall_mem_append.mpr ⟨fun cells hc => ?_, fun cells hc => ?_⟩
    · obtain ⟨t, ht, rfl⟩ := List.mem_map.mp hc
      exact (h.tables t ht).ascending.filter _
    · obtain ⟨b, hb, rfl⟩ := List.mem_map.mp hc
      exact (h.memory.buffers b hb).ascending.filter _
  have hmemory : (Merge.toFeed s.memory.feed).toList (s.memory.cursor start) =
      mergeLists ((s.memory.tables.map fun b =>
        b.cells.filter fun c => ¬ c.key < start).map (List.map .ok)) := by
    rw [Memory.cursor, Merge.toList_start, List.map_map, List.map_map]
    exact congrArg _ (h.memory.map_toList start)
  have hregrouped := mergeLists_regrouped hasc
  rw [List.append_nil, List.map_nil] at hregrouped
  rw [hmemory, hregrouped]

/-- A merge of all tables shows the newest version that they show. -/
theorem lookup_merged {s : Store} (hs : ∀ t ∈ s.tables.values, t.IsSound)
    {sources : List (List Item)} {merged : List Cell}
    (hscan : s.tables.values.mapM (·.scan []) = .ok sources)
    (hm : mergeLists sources = merged.map .ok) (key : Bytes) :
    lookup key merged = Version.newest? (s.versionsOnDisk key) := by
  have hsources : sources = (s.tables.values.map Table.cells).map (List.map .ok) := by
    have hall : s.tables.values.map (·.scan []) =
        ((s.tables.values.map Table.cells).map (List.map .ok)).map .ok := by
      rw [List.map_map, List.map_map]
      exact List.map_congr_left fun t ht => (hs t ht).scan_all
    exact (Except.ok.inj ((mapM_eq_ok.mpr hall).symm.trans hscan)).symm
  have hasc : ∀ cells ∈ s.tables.values.map Table.cells, Ascending cells := by
    intro cells hc
    obtain ⟨t, ht, rfl⟩ := List.mem_map.mp hc
    exact (hs t ht).ascending
  obtain ⟨out, hout, -, hlook⟩ := mergeLists_ascending hasc
  rw [hsources, hout] at hm
  rw [← (List.map_inj_right fun _ _ => Except.ok.inj).mp hm, hlook, List.filterMap_map]
  rfl

/-- A sound store shows the newest versions, when memory and disk may be taken in either order. -/
theorem IsSound.shows {s : Store} (h : s.IsSound) {map : Bytes → Version}
    (hm : ∀ key, Version.newest (s.memory.versions key ++ s.versionsOnDisk key) = map key)
    (hd : ∀ key, Version.newest (s.versionsOnDisk key ++ s.memory.versions key) = map key) :
    s.Shows map := by
  have hversion : ∀ key, s.version key = .ok (map key) := by
    intro key
    rw [h.version, ← hm, Version.newest_append, Version.newest_cons]
  refine ⟨hversion, fun key => ?_, fun start limit => ?_⟩
  · rw [Store.get, hversion]
    rfl
  · obtain ⟨cursor, pairs, hr, hl, hrange⟩ := h.range start limit
    exact ⟨cursor, pairs, hr, hl, funext hd ▸ hrange⟩

end Store

end TableStore

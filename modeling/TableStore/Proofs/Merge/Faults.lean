import TableStore.Proofs.Merge.Newest

/-! Merges of sources that may end in a fault. What such a source yields is the cells in front of
its first fault, and the lanes of the merge move as those of the merge of these cells do. A step
that meets a fault yields it in place of its cell, and a lane still open starts behind every key
that a step has taken. So a cell that comes out, early or late, is the newest of the versions in
front of the faults, and a source that no longer has a lane then has had its fault yielded. -/

namespace TableStore

/-- The cells that a source yields in front of its first fault. -/
def readable : List Item → List Cell
  | .ok cell :: rest => cell :: readable rest
  | _ => []

/-- The fault that ends a source, if one does. -/
def firstFault? : List Item → Option Fault
  | [] => none
  | .ok _ :: rest => firstFault? rest
  | .error fault :: _ => some fault

theorem mem_of_firstFault? {items : List Item} {fault : Fault} (h : firstFault? items = some fault) :
    .error fault ∈ items := by
  induction items with
  | nil => simp [firstFault?] at h
  | cons item rest ih =>
    cases item with
    | ok cell => exact List.mem_cons_of_mem _ (ih h)
    | error other =>
      rw [← Option.some.inj h]
      exact List.mem_cons_self

@[simp] theorem readable_map_ok (cells : List Cell) : readable (cells.map .ok) = cells := by
  induction cells with
  | nil => rfl
  | cons cell rest ih => rw [List.map_cons, readable, ih]

@[simp] theorem firstFault?_map_ok (cells : List Cell) : firstFault? (cells.map .ok) = none := by
  induction cells with
  | nil => rfl
  | cons cell rest ih => rw [List.map_cons, firstFault?, ih]

namespace Merge

/-! ### The lanes in front of the faults -/

/-- A merge with what its sources yield in front of their faults. -/
def unfaulted (m : Merge (List Item)) : Merge (List Cell) :=
  ⟨m.lanes.map (Lane.map readable), []⟩

theorem unfaulted_place (before behind : List (Lane (List Item))) (rest : List Item)
    (faults : List Fault) :
    (place Feed.ofList before behind rest faults).unfaulted =
      place Feed.ofCells (before.map (Lane.map readable)) (behind.map (Lane.map readable))
        (readable rest) [] := by
  cases rest with
  | nil => simp [place, Feed.ofList, Feed.ofCells, unfaulted, readable]
  | cons item rest =>
    cases item with
    | ok cell => simp [place, Feed.ofList, Feed.ofCells, unfaulted, readable, Lane.map]
    | error fault => simp [place, Feed.ofList, Feed.ofCells, unfaulted, readable]

theorem unfaulted_skip (key : Bytes) (m : Merge (List Item)) :
    (skip Feed.ofList key m).unfaulted = skip Feed.ofCells key m.unfaulted := by
  fun_induction skip Feed.ofList key m with
  | case1 m hm => rw [skip_of_none (m := m.unfaulted) (foremost_map_of_none readable hm)]
  | case2 m before lane behind hm hk ih =>
    rw [skip_of_some (m := m.unfaulted) (foremost_map_of_some readable hm), if_pos (by exact hk),
      ih, unfaulted_place]
    rfl
  | case3 m before lane behind hm hk =>
    rw [skip_of_some (m := m.unfaulted) (foremost_map_of_some readable hm), if_neg (by exact hk)]

theorem unfaulted_start (sources : List (List Item)) :
    (start Feed.ofList sources).unfaulted = start Feed.ofCells (sources.map readable) := by
  have hfold : ∀ m : Merge (List Item),
      (sources.foldl (fun m rest => place Feed.ofList m.lanes [] rest m.faults) m).unfaulted =
        (sources.map readable).foldl (fun m rest => place Feed.ofCells m.lanes [] rest m.faults)
          m.unfaulted := by
    induction sources with
    | nil => exact fun m => rfl
    | cons source sources ih =>
      intro m
      rw [List.foldl_cons, ih, unfaulted_place]
      rfl
  exact hfold ⟨[], []⟩

/-! ### One step -/

/-- The lanes of a merge ascend in front of their faults. -/
def IsAscending (m : Merge (List Item)) : Prop := ∀ lane ∈ m.unfaulted.lanes, Ascending lane.cells

/-- Taking a cell moves all lanes past its key. -/
theorem IsAscending.lanes_passed {m : Merge (List Item)} (ha : m.IsAscending)
    {before behind : List (Lane (List Item))} {top : Lane (List Item)}
    (hf : foremost m.lanes = some (before, top, behind)) :
    (passed Feed.ofList before behind top).unfaulted.lanes =
      m.unfaulted.lanes.flatMap (advance top.head.key) := by
  have hseen := foremost_map_of_some readable hf
  have hpull : m.unfaulted.pull Feed.ofCells =
      some (settle top.head (passed Feed.ofList before behind top).unfaulted) := by
    rw [pull, unfaulted]
    dsimp only
    rw [hseen, passed, unfaulted_skip, unfaulted_place]
    rfl
  rw [pull_ofCells rfl hseen ha, Option.some.injEq] at hpull
  exact (congrArg (fun step => step.2.lanes) hpull).symm

theorem lt_of_mem_flatMap_advance {key : Bytes} {lanes : List (Lane (List Cell))}
    (h : From key lanes) {lane : Lane (List Cell)} (hm : lane ∈ lanes.flatMap (advance key)) :
    key < lane.head.key := by
  obtain ⟨origin, ho, hm⟩ := List.mem_flatMap.mp hm
  obtain ⟨hasc, hge⟩ := h origin ho
  unfold advance at hm
  split at hm
  · rename_i hk
    exact (of_mem_laneOf_rest hasc hk hm).2
  · rename_i hk
    rw [List.mem_singleton.mp hm]
    exact lt_of_not_lt_of_ne hge hk

/-- The lanes after a step are those before it, or all of them have moved past one key. -/
theorem IsAscending.lanes_pull {m next : Merge (List Item)} {item : Item} (ha : m.IsAscending)
    (h : m.pull Feed.ofList = some (item, next)) :
    next.unfaulted.lanes = m.unfaulted.lanes ∨
      ∃ key, From key m.unfaulted.lanes ∧
        next.unfaulted.lanes = m.unfaulted.lanes.flatMap (advance key) := by
  rcases pull_cases h with ⟨_, -, -, hl⟩ | ⟨before, top, behind, -, hf, hs⟩
  · exact Or.inl (by rw [unfaulted, hl, unfaulted])
  · have hl : next.lanes = (passed Feed.ofList before behind top).lanes := by
      rcases settle_cases hs with ⟨-, rfl, -⟩ | ⟨_, -, -, hl⟩
      · rfl
      · exact hl
    refine Or.inr ⟨top.head.key, from_of_foremost (foremost_map_of_some readable hf) ha, ?_⟩
    rw [← ha.lanes_passed hf, unfaulted, hl, unfaulted]

theorem IsAscending.pull {m next : Merge (List Item)} {item : Item} (ha : m.IsAscending)
    (h : m.pull Feed.ofList = some (item, next)) : next.IsAscending := by
  intro lane hm
  rcases ha.lanes_pull h with hl | ⟨key, -, hl⟩
  · exact ha lane (hl ▸ hm)
  · rw [hl] at hm
    obtain ⟨origin, ho, hm⟩ := List.mem_flatMap.mp hm
    exact ascending_advance (ha origin ho) hm

/-! ### Faults still to come -/

/-- A merge still has to yield the fault of a source with the given cells: it has met the fault, or
a lane that holds some of these cells leads to it. -/
def Owes (m : Merge (List Item)) (fault : Fault) (cells : List Cell) : Prop :=
  fault ∈ m.faults ∨
    ∃ lane ∈ m.lanes, firstFault? lane.rest = some fault ∧
      ∀ cell ∈ lane.head :: readable lane.rest, cell ∈ cells

variable {fault : Fault} {cells : List Cell}

theorem owes_place (before behind : List (Lane (List Item))) {rest : List Item}
    (faults : List Fault) (hf : firstFault? rest = some fault)
    (hc : ∀ cell ∈ readable rest, cell ∈ cells) :
    (place Feed.ofList before behind rest faults).Owes fault cells := by
  cases rest with
  | nil => simp [firstFault?] at hf
  | cons item rest =>
    cases item with
    | ok cell => exact Or.inr ⟨⟨cell, rest⟩, List.mem_append_right _ List.mem_cons_self, hf, hc⟩
    | error own =>
      rw [firstFault?, Option.some.injEq] at hf
      exact Or.inl (hf ▸ List.mem_append_right _ List.mem_cons_self)

theorem mem_faults_place {faults : List Fault} (h : fault ∈ faults)
    (before behind : List (Lane (List Item))) (rest : List Item) :
    fault ∈ (place Feed.ofList before behind rest faults).faults := by
  unfold place
  split
  · exact h
  · exact h
  · exact List.mem_append_left _ h

theorem Owes.place_of_foremost {m : Merge (List Item)} {before behind : List (Lane (List Item))}
    {lane : Lane (List Item)} (h : m.Owes fault cells)
    (hf : foremost m.lanes = some (before, lane, behind)) :
    (place Feed.ofList before behind lane.rest m.faults).Owes fault cells := by
  rcases h with h | ⟨other, hm, ho, hc⟩
  · exact Or.inl (mem_faults_place h _ _ _)
  · rw [eq_of_foremost hf, List.mem_append, List.mem_cons] at hm
    rcases hm with hm | rfl | hm
    · exact Or.inr ⟨other, mem_lanes_place (List.mem_append_left _ hm) _ _, ho, hc⟩
    · exact owes_place _ _ _ ho fun cell hm => hc cell (List.mem_cons_of_mem _ hm)
    · exact Or.inr ⟨other, mem_lanes_place (List.mem_append_right _ hm) _ _, ho, hc⟩

theorem Owes.skip {m : Merge (List Item)} (key : Bytes) (h : m.Owes fault cells) :
    (skip Feed.ofList key m).Owes fault cells := by
  fun_induction Merge.skip Feed.ofList key m with
  | case1 => exact h
  | case2 m before lane behind hf hk ih => exact ih (h.place_of_foremost hf)
  | case3 => exact h

theorem Owes.passed {m : Merge (List Item)} {before behind : List (Lane (List Item))}
    {top : Lane (List Item)} (h : m.Owes fault cells) (hn : m.faults = [])
    (hf : foremost m.lanes = some (before, top, behind)) :
    (passed Feed.ofList before behind top).Owes fault cells := by
  have hplace := h.place_of_foremost hf
  rw [hn] at hplace
  exact hplace.skip top.head.key

/-- A merge that has met one more fault than another owes that fault and all that the other does. -/
theorem Owes.of_faults_cons {m next : Merge (List Item)} {first : Fault} (h : m.Owes fault cells)
    (hf : m.faults = first :: next.faults) (hl : next.lanes = m.lanes) :
    first = fault ∨ next.Owes fault cells := by
  rcases h with h | h
  · rw [hf, List.mem_cons] at h
    exact h.imp Eq.symm Or.inl
  · exact Or.inr (Or.inr (hl ▸ h))

/-- A step yields the fault that is owed, or it is owed still. -/
theorem Owes.pull {m next : Merge (List Item)} {item : Item} (h : m.Owes fault cells)
    (hp : m.pull Feed.ofList = some (item, next)) :
    item = .error fault ∨ next.Owes fault cells := by
  rcases pull_cases hp with ⟨first, rfl, hf, hl⟩ | ⟨before, top, behind, hn, hf, hs⟩
  · exact (h.of_faults_cons hf hl).imp (congrArg _) id
  · have hpassed := h.passed hn hf
    rcases settle_cases hs with ⟨-, rfl, -⟩ | ⟨first, rfl, hfirst, hl⟩
    · exact Or.inr hpassed
    · exact (hpassed.of_faults_cons hfirst hl).imp (congrArg _) id

/-- What is owed behind a step that yields a cell has cells behind that one. -/
theorem Owes.lt_of_pull {m next : Merge (List Item)} {out : Cell} (h : m.Owes fault cells)
    (ha : m.IsAscending) (hp : m.pull Feed.ofList = some (.ok out, next)) :
    ∃ cell ∈ cells, out.key < cell.key := by
  have howes := (h.pull hp).resolve_left (by simp)
  obtain ⟨before, top, behind, -, hf, rfl, rfl, hnone⟩ := pull_eq_some_ok hp
  obtain ⟨lane, hm, -, hc⟩ := howes.resolve_left (by simp [hnone])
  have hmem : lane.map readable ∈ (Merge.passed Feed.ofList before behind top).unfaulted.lanes :=
    List.mem_map_of_mem hm
  rw [ha.lanes_passed hf] at hmem
  have hfrom := from_of_foremost (foremost_map_of_some readable hf) ha
  exact ⟨lane.head, hc _ List.mem_cons_self, lt_of_mem_flatMap_advance hfrom hmem⟩

/-! ### Whole merges -/

/-- A step that yields a cell yields the newest version of its key in front of the faults. -/
theorem IsAscending.newest_of_pull {m next : Merge (List Item)} {out : Cell} (ha : m.IsAscending)
    (h : m.pull Feed.ofList = some (.ok out, next)) :
    Version.newest? (versionsUnder out.key m.unfaulted.lanes) = some out.version := by
  obtain ⟨before, top, behind, -, hf, rfl, -, -⟩ := pull_eq_some_ok h
  exact newest_versionsUnder (foremost_map_of_some readable hf) ha

/-- A step takes all versions of a key or none. -/
theorem IsAscending.versionsUnder_pull {m next : Merge (List Item)} {item : Item}
    (ha : m.IsAscending) (h : m.pull Feed.ofList = some (item, next)) (key : Bytes) :
    versionsUnder key next.unfaulted.lanes = [] ∨
      versionsUnder key next.unfaulted.lanes = versionsUnder key m.unfaulted.lanes := by
  rcases ha.lanes_pull h with hl | ⟨taken, hfrom, hl⟩
  · exact Or.inr (congrArg _ hl)
  · rw [hl, versionsUnder_flatMap_advance _ _ hfrom]
    split
    · exact Or.inl rfl
    · exact Or.inr rfl

/-- Every cell that a merge yields is the newest version of its key in front of the faults, and a
fault that is owed comes before it or belongs to a source that is read past it. -/
theorem IsAscending.toList {m : Merge (List Item)} (ha : m.IsAscending) {before after : List Item}
    {out : Cell} (h : (toFeed Feed.ofList).toList m = before ++ .ok out :: after) :
    Version.newest? (versionsUnder out.key m.unfaulted.lanes) = some out.version ∧
      ∀ fault cells, m.Owes fault cells →
        .error fault ∈ before ∨ ∃ cell ∈ cells, out.key < cell.key := by
  induction before generalizing m with
  | nil =>
    obtain ⟨next, hp, -⟩ := Feed.pull_of_toList_eq_cons h
    exact ⟨ha.newest_of_pull hp, fun fault cells ho => Or.inr (ho.lt_of_pull ha hp)⟩
  | cons item before ih =>
    obtain ⟨next, hp, h⟩ := Feed.pull_of_toList_eq_cons h
    obtain ⟨hnewest, howed⟩ := ih (ha.pull hp) h
    refine ⟨?_, fun fault cells ho => ?_⟩
    · rcases ha.versionsUnder_pull hp out.key with hv | hv
      · simp [hv, Version.newest?] at hnewest
      · rw [← hv, hnewest]
    · rcases ho.pull hp with rfl | ho
      · exact Or.inl List.mem_cons_self
      · exact (howed fault cells ho).imp (List.mem_cons_of_mem _) id

theorem Owes.place {m : Merge (List Item)} (h : m.Owes fault cells) (rest : List Item) :
    (place Feed.ofList m.lanes [] rest m.faults).Owes fault cells :=
  h.imp (fun hf => mem_faults_place hf _ _ _)
    fun ⟨lane, hm, hl⟩ => ⟨lane, mem_lanes_place (List.mem_append_left _ hm) _ _, hl⟩

theorem owes_start {sources : List (List Item)} {items : List Item} (h : items ∈ sources)
    (hf : firstFault? items = some fault) :
    (start Feed.ofList sources).Owes fault (readable items) :=
  start_keeps (p := (Owes · fault (readable items))) h
    (fun m => owes_place m.lanes [] m.faults hf fun _ hc => hc) fun _ rest hm => hm.place rest

theorem isAscending_start {sources : List (List Item)}
    (h : ∀ items ∈ sources, Ascending (readable items)) :
    (start Feed.ofList sources).IsAscending := by
  intro lane hm
  rw [unfaulted_start, start_ofCells] at hm
  obtain ⟨cells, hc, hm⟩ := List.mem_flatMap.mp hm
  exact mem_laneOf hm ▸ List.forall_mem_map.mpr h cells hc

end Merge

/-- Where the cells of all sources ascend in front of their faults, a cell that the merge yields is
the newest version of its key among them. The fault of a source has come before, unless the source
has a cell behind that key in front of it. -/
theorem mergeLists_faulted {sources : List (List Item)}
    (ha : ∀ items ∈ sources, Ascending (readable items)) {before after : List Item} {out : Cell}
    (h : mergeLists sources = before ++ .ok out :: after) :
    Version.newest? (sources.filterMap fun items => lookup out.key (readable items)) =
        some out.version ∧
      ∀ items ∈ sources, ∀ fault, firstFault? items = some fault →
        .error fault ∈ before ∨ ∃ cell ∈ readable items, out.key < cell.key := by
  have hlanes : (Merge.start Feed.ofList sources).unfaulted.lanes =
      (sources.map readable).flatMap Merge.laneOf := by
    rw [Merge.unfaulted_start, Merge.start_ofCells]
  obtain ⟨hnewest, howed⟩ := (Merge.isAscending_start ha).toList h
  rw [hlanes, Merge.versionsUnder_flatMap_laneOf, List.filterMap_map] at hnewest
  exact ⟨hnewest, fun items hi fault hf => howed fault _ (Merge.owes_start hi hf)⟩

end TableStore

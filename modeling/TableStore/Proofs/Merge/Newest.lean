import TableStore.Proofs.Merge.Feeds
import TableStore.Proofs.Newest

/-! What a merge of ascending cells yields: ascending cells, and under each key the newest of the
versions that the sources hold for it, the one of the latest source among equals. A step takes
the cell of the foremost lane and moves each lane that starts with the same key past it; all other
lanes start behind that key, so the lanes together lose this key and nothing else. -/

namespace TableStore

/-- The newest of some versions, if there are any. -/
def Version.newest? : List Version → Option Version
  | [] => none
  | v :: vs => some (newest (v :: vs))

theorem Version.newest?_eq_some {vs : List Version} (h : vs ≠ []) :
    newest? vs = some (newest vs) := by
  cases vs with
  | nil => exact absurd rfl h
  | cons v vs => rfl

theorem Version.newest_of_newest?_eq_some {vs : List Version} {v : Version}
    (h : newest? vs = some v) : newest vs = v := by
  cases vs with
  | nil => simp [newest?] at h
  | cons w vs => exact Option.some.inj h

theorem Version.mem_of_newest?_eq_some {vs : List Version} {v : Version}
    (h : newest? vs = some v) : v ∈ vs := by
  cases vs with
  | nil => simp [newest?] at h
  | cons w vs =>
    rw [newest?, Option.some.injEq] at h
    exact h ▸ newest_mem_of_mem List.mem_cons_self

/-- A list of cells, read from its head. -/
def Feed.ofCells : Feed (List Cell) where
  pull
    | [] => none
    | cell :: rest => some (.ok cell, rest)
  remaining := List.length
  remaining_lt := by
    intro s i s' h
    cases s with
    | nil => simp at h
    | cons a rest =>
      simp only [Option.some.injEq, Prod.mk.injEq] at h
      simp [← h.2]

theorem Feed.seenAs_ofCells : ofCells.SeenAs ofList (List.map Except.ok) := by
  intro s
  cases s <;> rfl

/-! ### The foremost lane -/

theorem Cell.order_eq_lt_iff {a b : Cell} :
    a.order b = .lt ↔ a.key < b.key ∨ a.key = b.key ∧ b.version.Older a.version := by
  unfold order
  split
  · rename_i h
    simp [h]
  · rename_i h
    split
    · rename_i hb
      have hne : a.key ≠ b.key := fun he => List.lt_irrefl _ (he ▸ hb)
      simp [h, hne]
    · rename_i hb
      have he : a.key = b.key := eq_of_not_lt_of_not_lt h hb
      split
      · rename_i ho
        simp [he, ho]
      · rename_i ho
        split <;> simp [h, ho]

namespace Merge

variable {σ : Type}

/-- `top` comes no later than a lane before it: on a tie the later lane is taken. -/
def Yields (top lane : Lane σ) : Prop :=
  ¬ lane.head.key < top.head.key ∧
    (lane.head.key = top.head.key → ¬ top.head.version.Older lane.head.version)

/-- `top` comes ahead of a lane behind it. -/
def Leads (top lane : Lane σ) : Prop :=
  ¬ lane.head.key < top.head.key ∧
    (lane.head.key = top.head.key → lane.head.version.Older top.head.version)

theorem leads_of_lt {lane best other : Lane σ} (h : lane.head.order best.head = .lt)
    (ho : Yields best other) : Leads lane other := by
  obtain ⟨hk, hv⟩ := ho
  rcases Cell.order_eq_lt_iff.mp h with hl | ⟨he, hb⟩
  · have hlt : ¬ other.head.key < lane.head.key := fun hol => hk (List.lt_trans hol hl)
    refine ⟨hlt, fun hoe => absurd (hoe ▸ hl) hk⟩
  · rw [Leads, he]
    exact ⟨hk, fun hoe => Version.older_of_not_older (hv hoe) hb⟩

theorem Leads.yields {top lane : Lane σ} (h : Leads top lane) : Yields top lane :=
  ⟨h.1, fun he => (h.2 he).asymm⟩

theorem foremost_eq_none_iff {lanes : List (Lane σ)} : foremost lanes = none ↔ lanes = [] := by
  cases lanes with
  | nil => simp [foremost]
  | cons lane lanes =>
    simp only [reduceCtorEq, iff_false]
    unfold foremost
    split
    · simp
    · split <;> simp

theorem foremost_leads {lanes before behind : List (Lane σ)} {top : Lane σ}
    (h : foremost lanes = some (before, top, behind)) :
    (∀ lane ∈ before, Yields top lane) ∧ ∀ lane ∈ behind, Leads top lane := by
  induction lanes generalizing before top behind with
  | nil => simp [foremost] at h
  | cons lane lanes ih =>
    unfold foremost at h
    split at h
    · rename_i hn
      simp only [Option.some.injEq, Prod.mk.injEq] at h
      obtain ⟨rfl, rfl, rfl⟩ := h
      rw [foremost_eq_none_iff.mp hn]
      simp
    · rename_i front best back hf
      obtain ⟨hfront, hback⟩ := ih hf
      split at h
      · rename_i ho
        simp only [Option.some.injEq, Prod.mk.injEq] at h
        obtain ⟨rfl, rfl, rfl⟩ := h
        refine ⟨by simp, fun other hm => ?_⟩
        rw [eq_of_foremost hf, List.mem_append, List.mem_cons] at hm
        apply leads_of_lt ho
        rcases hm with hm | rfl | hm
        · exact hfront other hm
        · exact ⟨List.lt_irrefl _, fun _ => Version.not_older_self _⟩
        · exact (hback other hm).yields
      · rename_i ho
        simp only [Option.some.injEq, Prod.mk.injEq] at h
        obtain ⟨rfl, rfl, rfl⟩ := h
        refine ⟨fun other hm => ?_, hback⟩
        rcases List.mem_cons.mp hm with rfl | hm
        · rw [Cell.order_eq_lt_iff, not_or, not_and] at ho
          exact ⟨ho.1, fun he => ho.2 he⟩
        · exact hfront other hm

/-! ### Lanes of cells -/

end Merge

/-- All cells of a lane. -/
def Lane.cells (lane : Lane (List Cell)) : List Cell := lane.head :: lane.rest

namespace Merge

/-- The lane of some cells, if there are any. -/
def laneOf : List Cell → List (Lane (List Cell))
  | [] => []
  | cell :: rest => [⟨cell, rest⟩]

theorem place_ofCells (before behind : List (Lane (List Cell))) (rest : List Cell)
    (faults : List Fault) :
    place Feed.ofCells before behind rest faults = ⟨before ++ laneOf rest ++ behind, faults⟩ := by
  cases rest <;> simp [place, Feed.ofCells, laneOf]

theorem start_ofCells (sources : List (List Cell)) :
    start Feed.ofCells sources = ⟨sources.flatMap laneOf, []⟩ := by
  have hfold : ∀ lanes : List (Lane (List Cell)),
      sources.foldl (fun m rest => place Feed.ofCells m.lanes [] rest m.faults) ⟨lanes, []⟩ =
        ⟨lanes ++ sources.flatMap laneOf, []⟩ := by
    induction sources with
    | nil => simp
    | cons source sources ih =>
      intro lanes
      rw [List.foldl_cons, place_ofCells, List.append_nil, ih, List.flatMap_cons,
        List.append_assoc]
  exact hfold []

/-- The lane past `key`, if it starts with that key. -/
def advance (key : Bytes) (lane : Lane (List Cell)) : List (Lane (List Cell)) :=
  if lane.head.key = key then laneOf lane.rest else [lane]

/-- Lanes of ascending cells that start at `key` or behind it. -/
def From (key : Bytes) (lanes : List (Lane (List Cell))) : Prop :=
  ∀ lane ∈ lanes, Ascending lane.cells ∧ ¬ lane.head.key < key

theorem mem_laneOf {lane : Lane (List Cell)} {cells : List Cell} (h : lane ∈ laneOf cells) :
    lane.cells = cells := by
  cases cells with
  | nil => simp [laneOf] at h
  | cons cell rest =>
    rw [laneOf, List.mem_singleton] at h
    rw [h]
    rfl

theorem of_mem_laneOf_rest {key : Bytes} {lane other : Lane (List Cell)}
    (h : Ascending lane.cells) (hk : lane.head.key = key) (ho : other ∈ laneOf lane.rest) :
    Ascending other.cells ∧ key < other.head.key := by
  have hc := mem_laneOf ho
  have hm : other.head ∈ lane.rest := hc ▸ List.mem_cons_self
  exact ⟨hc ▸ h.tail, hk ▸ h.head_lt hm⟩

theorem flatMap_advance_of_lt {key : Bytes} {lanes : List (Lane (List Cell))}
    (h : ∀ lane ∈ lanes, key < lane.head.key) : lanes.flatMap (advance key) = lanes := by
  induction lanes with
  | nil => rfl
  | cons lane lanes ih =>
    have hne : lane.head.key ≠ key := fun he => by
      have := h lane List.mem_cons_self
      exact List.lt_irrefl _ (he ▸ this)
    rw [List.flatMap_cons, advance, if_neg hne, ih fun l hl => h l (List.mem_cons_of_mem _ hl)]
    rfl

/-- Skipping a key that no lane starts before moves every lane past it. -/
theorem skip_ofCells {key : Bytes} {m : Merge (List Cell)} (h : From key m.lanes) :
    skip Feed.ofCells key m = ⟨m.lanes.flatMap (advance key), m.faults⟩ := by
  fun_induction skip Feed.ofCells key m with
  | case1 m hf =>
    rw [foremost_eq_none_iff] at hf
    rw [hf, List.flatMap_nil, ← hf]
  | case2 m before lane behind hf hk ih =>
    have hl := eq_of_foremost hf
    have hasc := (h lane (by simp [hl])).1
    have hnext : ∀ other ∈ laneOf lane.rest, Ascending other.cells ∧ key < other.head.key :=
      fun other ho => of_mem_laneOf_rest hasc hk ho
    rw [place_ofCells] at ih ⊢
    rw [ih, hl]
    · simp only [List.flatMap_append, List.flatMap_cons]
      rw [flatMap_advance_of_lt fun other ho => (hnext other ho).2, advance, if_pos hk]
      simp
    · intro other ho
      rw [List.mem_append, List.mem_append] at ho
      rcases ho with (ho | ho) | ho
      · exact h other (by simp [hl, ho])
      · exact ⟨(hnext other ho).1, List.not_lt.mpr (List.le_of_lt (hnext other ho).2)⟩
      · exact h other (by simp [hl, ho])
  | case3 m before lane behind hf hk =>
    have hl := eq_of_foremost hf
    obtain ⟨hbefore, hbehind⟩ := foremost_leads hf
    have hlt : key < lane.head.key := lt_of_not_lt_of_ne (h lane (by simp [hl])).2 hk
    rw [flatMap_advance_of_lt]
    intro other ho
    have hge : ¬ other.head.key < lane.head.key := by
      rw [hl, List.mem_append, List.mem_cons] at ho
      rcases ho with ho | rfl | ho
      · exact (hbefore other ho).1
      · exact List.lt_irrefl _
      · exact (hbehind other ho).1
    exact lt_of_lt_of_not_lt hlt hge

/-! ### The versions under a key -/

/-- The versions that lanes hold for a key, in the order of the lanes. -/
def versionsUnder (key : Bytes) (lanes : List (Lane (List Cell))) : List Version :=
  lanes.filterMap fun lane => lookup key lane.cells

theorem versionsUnder_append (key : Bytes) (a b : List (Lane (List Cell))) :
    versionsUnder key (a ++ b) = versionsUnder key a ++ versionsUnder key b :=
  List.filterMap_append

theorem versionsUnder_laneOf (key : Bytes) (cells : List Cell) :
    versionsUnder key (laneOf cells) = (lookup key cells).toList := by
  cases cells with
  | nil => rfl
  | cons cell rest =>
    simp only [versionsUnder, laneOf, List.filterMap_cons, List.filterMap_nil, Lane.cells]
    cases lookup key (cell :: rest) <;> rfl

theorem versionsUnder_flatMap_laneOf (key : Bytes) (sources : List (List Cell)) :
    versionsUnder key (sources.flatMap laneOf) = sources.filterMap (lookup key) := by
  induction sources with
  | nil => rfl
  | cons source sources ih =>
    rw [List.flatMap_cons, versionsUnder_append, ih, versionsUnder_laneOf, List.filterMap_cons]
    cases lookup key source <;> rfl

/-- A lane of ascending cells holds for a key at or before its start only what it starts with. -/
theorem lookup_cells_eq_some {key : Bytes} {lane : Lane (List Cell)} {v : Version}
    (ha : Ascending lane.cells) (hk : ¬ lane.head.key < key) (h : lookup key lane.cells = some v) :
    lane.head.key = key ∧ lane.head.version = v := by
  rcases List.mem_cons.mp (mem_of_lookup h) with hm | hm
  · rw [← hm]
    exact ⟨rfl, rfl⟩
  · exact absurd (ha.head_lt hm) hk

theorem lookup_advance (key other : Bytes) {lane : Lane (List Cell)} (ha : Ascending lane.cells)
    (hk : ¬ lane.head.key < key) :
    versionsUnder other (advance key lane) =
      if other = key then [] else (lookup other lane.cells).toList := by
  unfold advance
  by_cases hh : lane.head.key = key
  · rw [if_pos hh, versionsUnder_laneOf, Lane.cells, lookup_cons, hh]
    split
    · rename_i ho
      have hnone : lookup other lane.rest = none := by
        rw [lookup_eq_none_iff]
        intro c hc he
        exact List.lt_irrefl _ (hh ▸ ho ▸ he ▸ ha.head_lt hc)
      rw [hnone]
      rfl
    · rename_i ho
      rw [if_neg (Ne.symm ho)]
  · rw [if_neg hh]
    have hsingle : versionsUnder other [lane] = (lookup other lane.cells).toList :=
      versionsUnder_laneOf other lane.cells
    rw [hsingle]
    split
    · rename_i ho
      have hnone : lookup other lane.cells = none := by
        cases hl : lookup other lane.cells with
        | none => rfl
        | some v => exact absurd (lookup_cells_eq_some ha (ho ▸ hk) hl).1 (ho ▸ hh)
      rw [hnone]
      rfl
    · rfl

/-- Advancing the lanes takes all versions of the key and no others. -/
theorem versionsUnder_flatMap_advance (key other : Bytes) {lanes : List (Lane (List Cell))}
    (h : From key lanes) :
    versionsUnder other (lanes.flatMap (advance key)) =
      if other = key then [] else versionsUnder other lanes := by
  induction lanes with
  | nil => simp [versionsUnder]
  | cons lane lanes ih =>
    obtain ⟨ha, hk⟩ := h lane List.mem_cons_self
    rw [List.flatMap_cons, versionsUnder_append, lookup_advance key other ha hk,
      ih fun l hl => h l (List.mem_cons_of_mem _ hl)]
    split
    · rfl
    · rw [versionsUnder, versionsUnder, List.filterMap_cons]
      cases lookup other lane.cells <;> rfl

/-- The foremost lane starts with the newest of the versions under its key. -/
theorem newest_versionsUnder {lanes before behind : List (Lane (List Cell))}
    {top : Lane (List Cell)} (hf : foremost lanes = some (before, top, behind))
    (ha : ∀ lane ∈ lanes, Ascending lane.cells) :
    Version.newest? (versionsUnder top.head.key lanes) = some top.head.version := by
  have hl := eq_of_foremost hf
  obtain ⟨hbefore, hbehind⟩ := foremost_leads hf
  have htop : lookup top.head.key top.cells = some top.head.version := by
    rw [Lane.cells, lookup_cons, if_pos rfl]
  have hsplit : versionsUnder top.head.key lanes = versionsUnder top.head.key before ++
      top.head.version :: versionsUnder top.head.key behind := by
    rw [hl, versionsUnder_append]
    congr 1
    rw [versionsUnder, List.filterMap_cons, htop]
    rfl
  rw [Version.newest?_eq_some (by simp [hsplit]), hsplit, Version.newest_eq_of_bounds]
  · intro u hu
    obtain ⟨lane, hm, hu⟩ := List.mem_filterMap.mp hu
    obtain ⟨he, rfl⟩ := lookup_cells_eq_some (ha lane (by simp [hl, hm])) (hbefore lane hm).1 hu
    exact (hbefore lane hm).2 he
  · intro u hu
    obtain ⟨lane, hm, hu⟩ := List.mem_filterMap.mp hu
    obtain ⟨he, rfl⟩ := lookup_cells_eq_some (ha lane (by simp [hl, hm])) (hbehind lane hm).1 hu
    exact (hbehind lane hm).2 he

/-! ### Whole merges -/

theorem ascending_advance {key : Bytes} {lane other : Lane (List Cell)}
    (ha : Ascending lane.cells) (ho : other ∈ advance key lane) : Ascending other.cells := by
  unfold advance at ho
  split at ho
  · exact (of_mem_laneOf_rest ha rfl ho).1
  · rw [List.mem_singleton.mp ho]
    exact ha

/-- One step of a merge without faults. -/
theorem pull_ofCells {m : Merge (List Cell)} {before behind : List (Lane (List Cell))}
    {top : Lane (List Cell)} (hn : m.faults = [])
    (hf : foremost m.lanes = some (before, top, behind))
    (ha : ∀ lane ∈ m.lanes, Ascending lane.cells) :
    m.pull Feed.ofCells =
      some (.ok top.head, ⟨m.lanes.flatMap (advance top.head.key), []⟩) := by
  have hl := eq_of_foremost hf
  obtain ⟨hbefore, hbehind⟩ := foremost_leads hf
  have htop := ha top (by simp [hl])
  have hnext : ∀ other ∈ laneOf top.rest,
      Ascending other.cells ∧ top.head.key < other.head.key :=
    fun other ho => of_mem_laneOf_rest htop rfl ho
  have hfrom : From top.head.key (before ++ laneOf top.rest ++ behind) := by
    intro other ho
    rw [List.mem_append, List.mem_append] at ho
    rcases ho with (ho | ho) | ho
    · exact ⟨ha other (by simp [hl, ho]), (hbefore other ho).1⟩
    · exact ⟨(hnext other ho).1, List.not_lt.mpr (List.le_of_lt (hnext other ho).2)⟩
    · exact ⟨ha other (by simp [hl, ho]), (hbehind other ho).1⟩
  rw [pull, hn]
  simp only [hf]
  rw [place_ofCells, skip_ofCells hfrom, settle]
  simp only [hl, List.flatMap_append, List.flatMap_cons]
  rw [flatMap_advance_of_lt fun other ho => (hnext other ho).2, advance, if_pos rfl]
  simp

theorem from_of_foremost {lanes before behind : List (Lane (List Cell))}
    {top : Lane (List Cell)} (hf : foremost lanes = some (before, top, behind))
    (ha : ∀ lane ∈ lanes, Ascending lane.cells) : From top.head.key lanes := by
  obtain ⟨hbefore, hbehind⟩ := foremost_leads hf
  intro lane hm
  refine ⟨ha lane hm, ?_⟩
  rw [eq_of_foremost hf, List.mem_append, List.mem_cons] at hm
  rcases hm with hm | rfl | hm
  · exact (hbefore lane hm).1
  · exact List.lt_irrefl _
  · exact (hbehind lane hm).1

/-- What is still held under a key is not before it in lanes that begin there. -/
theorem not_lt_of_versionsUnder {key other : Bytes} {lanes : List (Lane (List Cell))}
    (hfrom : From key lanes) (h : versionsUnder other lanes ≠ []) : ¬ other < key := by
  intro hlt
  obtain ⟨v, hv⟩ := List.exists_mem_of_ne_nil _ h
  obtain ⟨lane, hm, hv⟩ := List.mem_filterMap.mp hv
  obtain ⟨hasc, hge⟩ := hfrom lane hm
  have hahead : ¬ lane.head.key < other := fun h => hge (List.lt_trans h hlt)
  exact hge ((lookup_cells_eq_some hasc hahead hv).1 ▸ hlt)

/-- The merge of ascending lanes ascends, and it holds under each key the newest version of the
lanes. -/
theorem toList_ofCells {m : Merge (List Cell)} (hn : m.faults = [])
    (ha : ∀ lane ∈ m.lanes, Ascending lane.cells) :
    ∃ cells, (toFeed Feed.ofCells).toList m = cells.map .ok ∧ Ascending cells ∧
      ∀ key, lookup key cells = Version.newest? (versionsUnder key m.lanes) := by
  fun_induction (toFeed Feed.ofCells).toList m with
  | case1 m hp =>
    refine ⟨[], rfl, List.Pairwise.nil, fun key => ?_⟩
    change m.pull Feed.ofCells = none at hp
    cases hf : foremost m.lanes with
    | none =>
      rw [foremost_eq_none_iff.mp hf]
      rfl
    | some found =>
      obtain ⟨before, top, behind⟩ := found
      rw [pull_ofCells hn hf ha] at hp
      simp at hp
  | case2 m item next hp ih =>
    change m.pull Feed.ofCells = some (item, next) at hp
    cases hf : foremost m.lanes with
    | none =>
      rw [pull, hn] at hp
      simp [hf] at hp
    | some found =>
      obtain ⟨before, top, behind⟩ := found
      rw [pull_ofCells hn hf ha, Option.some.injEq, Prod.mk.injEq] at hp
      obtain ⟨rfl, rfl⟩ := hp
      have hfrom := from_of_foremost hf ha
      obtain ⟨cells, hcells, hasc, hlook⟩ := ih rfl fun lane hm => by
        obtain ⟨from', hm', ho⟩ := List.mem_flatMap.mp hm
        exact ascending_advance (ha from' hm') ho
      simp only [versionsUnder_flatMap_advance _ _ hfrom] at hlook
      refine ⟨top.head :: cells, by rw [hcells]; rfl, ?_, fun key => ?_⟩
      · refine List.pairwise_cons.mpr ⟨fun c hc => ?_, hasc⟩
        have hsome := hasc.lookup_of_mem hc
        rw [hlook] at hsome
        split at hsome
        · simp [Version.newest?] at hsome
        · rename_i hne
          have hvs : versionsUnder c.key m.lanes ≠ [] := by
            intro he
            simp [he, Version.newest?] at hsome
          have hge := not_lt_of_versionsUnder hfrom hvs
          exact lt_of_not_lt_of_ne hge hne
      · rw [lookup_cons, hlook]
        by_cases hk : top.head.key = key
        · rw [if_pos hk, ← hk, newest_versionsUnder hf ha]
        · rw [if_neg hk, if_neg (Ne.symm hk)]

end Merge

theorem mergeLists_map_ok (sources : List (List Cell)) :
    mergeLists (sources.map (List.map .ok)) =
      (Merge.toFeed Feed.ofCells).toList (Merge.start Feed.ofCells sources) := by
  have hseen := Feed.seenAs_ofCells
  rw [mergeLists, Merge.start_map hseen, (Merge.seenAs_toFeed hseen).toList_eq]

/-- The merge of ascending lists of cells ascends, and it holds under each key the newest of the
versions in the lists, that of the last list among equals. -/
theorem mergeLists_ascending {sources : List (List Cell)} (h : ∀ s ∈ sources, Ascending s) :
    ∃ cells, mergeLists (sources.map (List.map .ok)) = cells.map .ok ∧ Ascending cells ∧
      ∀ key, lookup key cells = Version.newest? (sources.filterMap (lookup key)) := by
  rw [mergeLists_map_ok, Merge.start_ofCells]
  simp only [← Merge.versionsUnder_flatMap_laneOf]
  apply Merge.toList_ofCells rfl
  intro lane hm
  obtain ⟨source, hs, ho⟩ := List.mem_flatMap.mp hm
  exact Merge.mem_laneOf ho ▸ h source hs

end TableStore

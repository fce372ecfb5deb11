import TableStore.Proofs.Merge.Faults
import TableStore.Proofs.Merge.Latest

/-! What the faults of its sources cost a merge. A fault stands behind the last cell of its source,
and the step that takes this cell's key meets it and yields it in place of its own cell, though it
is not one of the faulted source alone: whichever source held the newest version, the cell of that
key is not yielded. No other cell is lost, and each fault is yielded once. So the cells that come
out are those of the sources without their faults only where no fault stands behind a cell. -/

namespace TableStore

/-! ### Cells and faults among items -/

/-- The fault that an item is, if it is one. -/
def Item.fault? : Item → Option Fault
  | .ok _ => none
  | .error fault => some fault

def cellsOf (items : List Item) : List Cell := items.filterMap Except.toOption

def faultsOf (items : List Item) : List Fault := items.filterMap Item.fault?

theorem cellsOf_append (items items' : List Item) :
    cellsOf (items ++ items') = cellsOf items ++ cellsOf items' := List.filterMap_append

@[simp] theorem cellsOf_map_error (faults : List Fault) :
    cellsOf (faults.map .error) = [] := by
  simp [cellsOf, List.filterMap_map, Function.comp_def, Except.toOption]

@[simp] theorem faultsOf_map_error (faults : List Fault) :
    faultsOf (faults.map .error) = faults := by
  simp [faultsOf, List.filterMap_map, Function.comp_def, Item.fault?]

/-- The key of the cell that a source's fault stands behind, with the fault. -/
def breakOff? : List Item → Option (Bytes × Fault)
  | .ok cell :: .error fault :: _ => some (cell.key, fault)
  | .ok _ :: rest => breakOff? rest
  | _ => none

/-- A fault stands behind a cell where there is a fault and a cell. -/
theorem exists_breakOff? {items : List Item} {fault : Fault} (hf : firstFault? items = some fault)
    (hr : readable items ≠ []) :
    ∃ key, breakOff? items = some (key, fault) ∧ ∃ cell ∈ readable items, cell.key = key := by
  fun_induction breakOff? items with
  | case1 cell own rest =>
    rw [firstFault?, firstFault?, Option.some.injEq] at hf
    exact ⟨cell.key, by rw [hf], cell, List.mem_cons_self, rfl⟩
  | case2 cell rest hrest ih =>
    cases rest with
    | nil => simp [firstFault?] at hf
    | cons item rest =>
      cases item with
      | error own => exact absurd rfl (hrest own rest)
      | ok next =>
        obtain ⟨key, hb, other, ho, hk⟩ := ih hf (by simp [readable])
        exact ⟨key, hb, other, List.mem_cons_of_mem _ ho, hk⟩
  | case3 items _ hcell =>
    cases items with
    | nil => simp [firstFault?] at hf
    | cons item rest =>
      cases item with
      | ok cell => exact absurd rfl (hcell cell rest)
      | error own => simp [readable] at hr

theorem breakOff?_eq_none {items : List Item}
    (h : firstFault? items = none ∨ readable items = []) : breakOff? items = none := by
  fun_induction breakOff? items with
  | case1 cell fault rest => simp [firstFault?, readable] at h
  | case2 cell rest hrest ih => exact ih (h.imp id fun hr => by simp [readable] at hr)
  | case3 => rfl

theorem map_snd_breakOff? {items : List Item} (hr : readable items ≠ []) :
    (breakOff? items).map Prod.snd = firstFault? items := by
  cases hf : firstFault? items with
  | none => rw [breakOff?_eq_none (Or.inl hf), Option.map_none]
  | some fault =>
    obtain ⟨key, hb, -⟩ := exists_breakOff? hf hr
    rw [hb, Option.map_some]

theorem mem_readable_of_breakOff? {items : List Item} {key : Bytes} {fault : Fault}
    (h : breakOff? items = some (key, fault)) : ∃ cell ∈ readable items, cell.key = key := by
  by_cases hr : readable items = []
  · simp [breakOff?_eq_none (Or.inr hr)] at h
  · cases hf : firstFault? items with
    | none => simp [breakOff?_eq_none (Or.inl hf)] at h
    | some own =>
      obtain ⟨key', hb, hc⟩ := exists_breakOff? hf hr
      rw [h, Option.some.injEq, Prod.mk.injEq] at hb
      exact hb.1 ▸ hc

/-! ### The faults behind the lanes -/

def Lane.items (lane : Lane (List Item)) : List Item := .ok lane.head :: lane.rest

namespace Merge

/-- The faults that lanes lead to, each with the key of the cell that it stands behind. -/
def owed (lanes : List (Lane (List Item))) : List (Bytes × Fault) :=
  lanes.filterMap fun lane => breakOff? lane.items

/-- The faults still to come: those that a merge has met and those that its lanes lead to. -/
def due (m : Merge (List Item)) : List Fault := m.faults ++ (owed m.lanes).map Prod.snd

theorem owed_append (a b : List (Lane (List Item))) : owed (a ++ b) = owed a ++ owed b :=
  List.filterMap_append

theorem owed_cons (lane : Lane (List Item)) (lanes : List (Lane (List Item))) :
    owed (lane :: lanes) = (breakOff? lane.items).toList ++ owed lanes := by
  rw [owed, List.filterMap_cons]
  cases breakOff? lane.items <;> rfl

/-- A lane that is moved on leads to the same fault, or it has met it behind the key it left. -/
theorem owed_place (before behind : List (Lane (List Item))) (lane : Lane (List Item))
    (faults : List Fault) :
    ∃ met, (place Feed.ofList before behind lane.rest faults).faults = faults ++ met ∧
      (owed (before ++ lane :: behind)).Perm (met.map (lane.head.key, ·) ++
        owed (place Feed.ofList before behind lane.rest faults).lanes) := by
  obtain ⟨head, rest⟩ := lane
  cases rest with
  | nil =>
    refine ⟨[], (List.append_nil _).symm, ?_⟩
    rw [owed_append, owed_cons]
    exact List.Perm.of_eq (owed_append before behind).symm
  | cons item rest =>
    cases item with
    | ok next =>
      refine ⟨[], (List.append_nil _).symm, ?_⟩
      show List.Perm _ (owed (before ++ ⟨next, rest⟩ :: behind))
      rw [owed_append, owed_append, owed_cons, owed_cons]
      exact List.Perm.refl _
    | error fault =>
      refine ⟨[fault], rfl, ?_⟩
      rw [owed_append, owed_cons]
      show List.Perm _ ((head.key, fault) :: owed (before ++ behind))
      rw [owed_append]
      exact List.perm_middle

theorem owed_skip (key : Bytes) (m : Merge (List Item)) :
    ∃ met, (skip Feed.ofList key m).faults = m.faults ++ met ∧
      (owed m.lanes).Perm (met.map (key, ·) ++ owed (skip Feed.ofList key m).lanes) := by
  fun_induction skip Feed.ofList key m with
  | case1 m hf => exact ⟨[], (List.append_nil _).symm, List.Perm.refl _⟩
  | case2 m before lane behind hf hk ih =>
    subst hk
    obtain ⟨met, hmet, hperm⟩ := ih
    obtain ⟨own, hown, hplace⟩ := owed_place before behind lane m.faults
    refine ⟨own ++ met, by rw [hmet, hown, List.append_assoc], ?_⟩
    rw [eq_of_foremost hf, List.map_append, List.append_assoc]
    exact hplace.trans (hperm.append_left _)
  | case3 m before lane behind hf hk => exact ⟨[], (List.append_nil _).symm, List.Perm.refl _⟩

/-- A step meets the faults that stand behind the key that it takes. -/
theorem owed_passed {lanes before behind : List (Lane (List Item))} {top : Lane (List Item)}
    (hf : foremost lanes = some (before, top, behind)) :
    (owed lanes).Perm ((passed Feed.ofList before behind top).faults.map (top.head.key, ·) ++
      owed (passed Feed.ofList before behind top).lanes) := by
  obtain ⟨own, hown, hplace⟩ := owed_place before behind top []
  obtain ⟨met, hmet, hskip⟩ :=
    owed_skip top.head.key (place Feed.ofList before behind top.rest [])
  rw [passed, hmet, hown, List.nil_append, List.map_append, List.append_assoc, eq_of_foremost hf]
  exact hplace.trans (hskip.append_left _)

theorem faultsOf_toList (m : Merge (List Item)) :
    (faultsOf ((toFeed Feed.ofList).toList m)).Perm m.due := by
  fun_induction (toFeed Feed.ofList).toList m with
  | case1 m hp =>
    change m.pull Feed.ofList = none at hp
    unfold pull at hp
    split at hp
    · simp at hp
    · rename_i hn
      split at hp
      · rename_i hf
        rw [due, hn, foremost_eq_none_iff.mp hf]
        exact List.Perm.refl _
      · simp at hp
  | case2 m item next hp ih =>
    change m.pull Feed.ofList = some (item, next) at hp
    rcases pull_cases hp with ⟨fault, rfl, hf, hl⟩ | ⟨before, top, behind, hn, hf, hs⟩
    · rw [due, hl] at ih
      rw [due, hf]
      exact ih.cons fault
    · have hpassed := (owed_passed hf).map Prod.snd
      rw [List.map_append, List.map_map, Function.comp_def] at hpassed
      simp only [List.map_id'] at hpassed
      rw [due, hn]
      rcases settle_cases hs with ⟨rfl, rfl, -⟩ | ⟨fault, rfl, hfault, hl⟩
      · exact ih.trans hpassed.symm
      · rw [hfault, ← hl] at hpassed
        exact (ih.cons fault).trans hpassed.symm

/-! ### The cells that come out -/

theorem toList_of_faults {σ : Type} {f : Feed σ} (lanes : List (Lane σ)) (faults : List Fault) :
    (toFeed f).toList ⟨lanes, faults⟩ = faults.map .error ++ (toFeed f).toList ⟨lanes, []⟩ := by
  induction faults with
  | nil => rfl
  | cons fault faults ih =>
    have hp : (toFeed f).pull ⟨lanes, fault :: faults⟩ = some (.error fault, ⟨lanes, faults⟩) := rfl
    rw [Feed.toList_of_pull_some hp, ih]
    rfl

/-- A step yields its cell, or the faults that it meets in place of it. -/
theorem toList_of_foremost {σ : Type} {f : Feed σ} {m : Merge σ} {before behind : List (Lane σ)}
    {top : Lane σ} (hn : m.faults = []) (hf : foremost m.lanes = some (before, top, behind)) :
    (toFeed f).toList m =
      (if (passed f before behind top).faults = [] then [.ok top.head]
        else (passed f before behind top).faults.map .error) ++
      (toFeed f).toList ⟨(passed f before behind top).lanes, []⟩ := by
  have hp : (toFeed f).pull m = some (settle top.head (passed f before behind top)) := by
    show m.pull f = _
    rw [pull, hn]
    simp only [hf]
    rfl
  rw [Feed.toList_of_pull_some hp]
  obtain ⟨lanes, faults⟩ := passed f before behind top
  cases faults with
  | nil => rfl
  | cons fault faults =>
    show .error fault :: (toFeed f).toList ⟨lanes, faults⟩ = _
    rw [toList_of_faults, if_neg (by simp)]
    rfl

/-- Behind a step only faults are owed that stand behind a later key. -/
theorem IsAscending.lt_of_mem_owed {m : Merge (List Item)} (ha : m.IsAscending)
    {before behind : List (Lane (List Item))} {top : Lane (List Item)}
    (hf : foremost m.lanes = some (before, top, behind)) {owing : Bytes × Fault}
    (ho : owing ∈ owed (passed Feed.ofList before behind top).lanes) :
    top.head.key < owing.1 := by
  obtain ⟨lane, hm, hb⟩ := List.mem_filterMap.mp ho
  obtain ⟨cell, hc, hk⟩ : ∃ cell ∈ readable lane.items, cell.key = owing.1 :=
    mem_readable_of_breakOff? hb
  have hseen : lane.map readable ∈ (passed Feed.ofList before behind top).unfaulted.lanes :=
    List.mem_map_of_mem hm
  rw [ha.lanes_passed hf] at hseen
  have hfrom := from_of_foremost (foremost_map_of_some readable hf) ha
  have hlt := lt_of_mem_flatMap_advance hfrom hseen
  obtain ⟨origin, hin, hout⟩ := List.mem_flatMap.mp hseen
  have hasc : Ascending (lane.map readable).cells := ascending_advance (ha origin hin) hout
  rw [← hk]
  rcases List.mem_cons.mp hc with rfl | hc
  · exact hlt
  · exact List.lt_trans hlt (hasc.head_lt hc)

/-- The merge of the cells in front of the faults ends where the merge with the faults does, or it
takes the same cell. -/
theorem IsAscending.pull_unfaulted {m : Merge (List Item)} (ha : m.IsAscending) :
    foremost m.lanes = none ∧ m.unfaulted.pull Feed.ofCells = none ∨
      ∃ before top behind, foremost m.lanes = some (before, top, behind) ∧
        m.unfaulted.pull Feed.ofCells = some (.ok top.head,
          unfaulted ⟨(passed Feed.ofList before behind top).lanes, []⟩) := by
  cases hf : foremost m.lanes with
  | none =>
    refine Or.inl ⟨rfl, ?_⟩
    rw [Merge.pull, unfaulted]
    simp only [foremost_map_of_none readable hf]
  | some found =>
    obtain ⟨before, top, behind⟩ := found
    refine Or.inr ⟨before, top, behind, rfl, ?_⟩
    rw [pull_ofCells rfl (foremost_map_of_some readable hf) ha]
    have hlanes := ha.lanes_passed hf
    exact congrArg (fun lanes => some (Except.ok top.head, Merge.mk lanes [])) hlanes.symm

theorem IsAscending.passed {m : Merge (List Item)} (ha : m.IsAscending)
    {before behind : List (Lane (List Item))} {top : Lane (List Item)}
    (hf : foremost m.lanes = some (before, top, behind)) :
    IsAscending ⟨(passed Feed.ofList before behind top).lanes, []⟩ := by
  intro lane hm
  change lane ∈ (Merge.passed Feed.ofList before behind top).unfaulted.lanes at hm
  rw [ha.lanes_passed hf] at hm
  obtain ⟨origin, ho, hm⟩ := List.mem_flatMap.mp hm
  exact ascending_advance (ha origin ho) hm

/-- The keys that a fault stands behind lose the key of the step, if the step met one. -/
theorem mem_keys_owed {lanes before behind : List (Lane (List Item))} {top : Lane (List Item)}
    (hf : foremost lanes = some (before, top, behind)) {key : Bytes} :
    key ∈ (owed lanes).map Prod.fst ↔
      (passed Feed.ofList before behind top).faults ≠ [] ∧ top.head.key = key ∨
        key ∈ (owed (passed Feed.ofList before behind top).lanes).map Prod.fst := by
  rw [((owed_passed hf).map Prod.fst).mem_iff, List.map_append, List.map_map, List.mem_append,
    Function.comp_def]
  simp only [List.map_const', List.mem_replicate, List.length_eq_zero_iff, ne_eq]
  rw [eq_comm (a := key)]

theorem IsAscending.head_mem_keys_owed {m : Merge (List Item)} (ha : m.IsAscending)
    {before behind : List (Lane (List Item))} {top : Lane (List Item)}
    (hf : foremost m.lanes = some (before, top, behind)) :
    top.head.key ∈ (owed m.lanes).map Prod.fst ↔
      (Merge.passed Feed.ofList before behind top).faults ≠ [] := by
  rw [mem_keys_owed hf, or_iff_left, and_iff_left rfl]
  intro hm
  obtain ⟨owing, ho, hk⟩ := List.mem_map.mp hm
  exact List.lt_irrefl _ (hk ▸ ha.lt_of_mem_owed hf ho)

/-- The cells that a merge yields are those that it would without its faults, less those with a key
that a fault stands behind. -/
theorem cellsOf_toList_of_no_fault {m : Merge (List Item)} (hn : m.faults = []) (ha : m.IsAscending)
    {cells : List Cell} (hasc : Ascending cells)
    (hc : (toFeed Feed.ofCells).toList m.unfaulted = cells.map .ok) :
    cellsOf ((toFeed Feed.ofList).toList m) =
      cells.filter fun cell => cell.key ∉ (owed m.lanes).map Prod.fst := by
  induction cells generalizing m with
  | nil =>
    have hp : m.unfaulted.pull Feed.ofCells = none := Feed.pull_of_toList_eq_nil hc
    rcases ha.pull_unfaulted with ⟨hf, -⟩ | ⟨before, top, behind, -, hs⟩
    · have hend : (toFeed Feed.ofList).pull m = none := by
        show m.pull Feed.ofList = none
        rw [pull, hn]
        simp only [hf]
      rw [Feed.toList_of_pull_none hend]
      rfl
    · simp [hp] at hs
  | cons cell cells ih =>
    obtain ⟨next, hp, hc⟩ := Feed.pull_of_toList_eq_cons hc
    change m.unfaulted.pull Feed.ofCells = _ at hp
    rcases ha.pull_unfaulted with ⟨-, hs⟩ | ⟨before, top, behind, hf, hs⟩
    · simp [hp] at hs
    · rw [hp, Option.some.injEq, Prod.mk.injEq, Except.ok.injEq] at hs
      obtain ⟨rfl, rfl⟩ := hs
      rw [toList_of_foremost hn hf, cellsOf_append, ih rfl (ha.passed hf) hasc.tail hc,
        List.filter_cons]
      have hlater : ∀ cell ∈ cells, top.head.key ≠ cell.key := by
        intro cell hm he
        exact List.lt_irrefl _ (he ▸ hasc.head_lt hm)
      have hrest : (cells.filter fun cell =>
            cell.key ∉ (owed (passed Feed.ofList before behind top).lanes).map Prod.fst) =
          cells.filter fun cell => cell.key ∉ (owed m.lanes).map Prod.fst := by
        apply List.filter_congr
        intro cell hm
        have hkey := (mem_keys_owed hf).trans (or_iff_right fun h => hlater cell hm h.2)
        exact decide_eq_decide.mpr (not_congr hkey.symm)
      have hlost := ha.head_mem_keys_owed hf
      rw [hrest]
      by_cases hmet : (Merge.passed Feed.ofList before behind top).faults = []
      · have hkept : top.head.key ∉ (owed m.lanes).map Prod.fst := fun hm => hlost.mp hm hmet
        rw [if_pos hmet, if_pos (decide_eq_true hkept)]
        rfl
      · have hgone := hlost.mpr hmet
        rw [if_neg hmet, cellsOf_map_error, if_neg fun hd => absurd hgone (of_decide_eq_true hd)]
        rfl

theorem cellsOf_toList {m : Merge (List Item)} (ha : m.IsAscending) {cells : List Cell}
    (hasc : Ascending cells)
    (hc : (toFeed Feed.ofCells).toList m.unfaulted = cells.map .ok) :
    cellsOf ((toFeed Feed.ofList).toList m) =
      cells.filter fun cell => cell.key ∉ (owed m.lanes).map Prod.fst := by
  obtain ⟨lanes, faults⟩ := m
  rw [toList_of_faults, cellsOf_append, cellsOf_map_error, List.nil_append]
  exact cellsOf_toList_of_no_fault (m := ⟨lanes, []⟩) rfl ha hasc hc

/-! ### Whole merges -/

/-- Opening a source: its fault is met at once, or its lane leads to it. -/
theorem place_behind (m : Merge (List Item)) (items : List Item) :
    owed (place Feed.ofList m.lanes [] items m.faults).lanes =
        owed m.lanes ++ (breakOff? items).toList ∧
      (place Feed.ofList m.lanes [] items m.faults).due.Perm
        (m.due ++ (firstFault? items).toList) := by
  cases items with
  | nil =>
    show owed (m.lanes ++ []) = _ ∧ (due ⟨m.lanes ++ [], m.faults⟩).Perm _
    rw [List.append_nil]
    exact ⟨(List.append_nil _).symm, List.Perm.of_eq (List.append_nil _).symm⟩
  | cons item rest =>
    cases item with
    | ok cell =>
      show owed (m.lanes ++ [⟨cell, rest⟩]) = _ ∧
        (due ⟨m.lanes ++ [⟨cell, rest⟩], m.faults⟩).Perm _
      have hlane : owed [⟨cell, rest⟩] = (breakOff? (.ok cell :: rest)).toList :=
        (owed_cons ⟨cell, rest⟩ []).trans (List.append_nil _)
      rw [due, owed_append, hlane, List.map_append, ← map_snd_breakOff? (by simp [readable]), due,
        List.append_assoc]
      exact ⟨rfl, List.Perm.of_eq (by cases breakOff? (.ok cell :: rest) <;> rfl)⟩
    | error fault =>
      show owed (m.lanes ++ []) = _ ∧ (due ⟨m.lanes ++ [], m.faults ++ [fault]⟩).Perm _
      rw [due, List.append_nil, due, List.append_assoc, List.append_assoc]
      exact ⟨(List.append_nil _).symm, List.perm_append_comm.append_left _⟩

theorem owed_start (sources : List (List Item)) :
    owed (start Feed.ofList sources).lanes = sources.filterMap breakOff? := by
  have hfold : ∀ m : Merge (List Item),
      owed (sources.foldl (fun m rest => place Feed.ofList m.lanes [] rest m.faults) m).lanes =
        owed m.lanes ++ sources.filterMap breakOff? := by
    induction sources with
    | nil => exact fun m => (List.append_nil _).symm
    | cons items sources ih =>
      intro m
      rw [List.foldl_cons, ih, (place_behind m items).1, List.append_assoc, List.filterMap_cons]
      cases breakOff? items <;> rfl
  exact hfold ⟨[], []⟩

theorem due_start (sources : List (List Item)) :
    (start Feed.ofList sources).due.Perm (sources.filterMap firstFault?) := by
  have hfold : ∀ m : Merge (List Item),
      (sources.foldl (fun m rest => place Feed.ofList m.lanes [] rest m.faults) m).due.Perm
        (m.due ++ sources.filterMap firstFault?) := by
    induction sources with
    | nil => exact fun m => List.Perm.of_eq (List.append_nil _).symm
    | cons items sources ih =>
      intro m
      refine (ih _).trans (((place_behind m items).2.append_right _).trans (List.Perm.of_eq ?_))
      rw [List.append_assoc, List.filterMap_cons]
      cases firstFault? items <;> rfl
  exact hfold ⟨[], []⟩

end Merge

/-- A merge yields the fault of each source that has one, once. -/
theorem perm_faultsOf_mergeLists (sources : List (List Item)) :
    (faultsOf (mergeLists sources)).Perm (sources.filterMap firstFault?) :=
  (Merge.faultsOf_toList _).trans (Merge.due_start sources)

/-- Where the cells of all sources ascend in front of their faults, the merge yields the cells that
it would yield without the faults, in the same order, less those whose key a fault stands behind in
some source. It yields each fault once, and it loses no cell only if no fault stands behind one. -/
theorem mergeLists_losses {sources : List (List Item)}
    (ha : ∀ items ∈ sources, Ascending (readable items)) :
    ∃ cells, mergeLists (sources.map fun items => (readable items).map .ok) = cells.map .ok ∧
      cellsOf (mergeLists sources) =
        cells.filter (fun cell => cell.key ∉ (sources.filterMap breakOff?).map Prod.fst) ∧
      (faultsOf (mergeLists sources)).Perm (sources.filterMap firstFault?) ∧
      (cellsOf (mergeLists sources) = cells ↔
        ∀ items ∈ sources, firstFault? items ≠ none → readable items = []) := by
  have hruns : ∀ s ∈ sources.map readable, Ascending s := by
    intro s hs
    obtain ⟨items, hi, rfl⟩ := List.mem_map.mp hs
    exact ha items hi
  obtain ⟨cells, hcells, hasc, hl⟩ := mergeLists_ascending hruns
  have hlanes : (Merge.start Feed.ofList sources).IsAscending := by
    intro lane hm
    rw [Merge.unfaulted_start, Merge.start_ofCells] at hm
    obtain ⟨run, hr, hm⟩ := List.mem_flatMap.mp hm
    exact Merge.mem_laneOf hm ▸ hruns run hr
  have hkept : cellsOf (mergeLists sources) =
      cells.filter (fun cell => cell.key ∉ (sources.filterMap breakOff?).map Prod.fst) := by
    rw [mergeLists_map_ok, ← Merge.unfaulted_start] at hcells
    rw [mergeLists, ← Merge.owed_start]
    exact Merge.cellsOf_toList hlanes hasc hcells
  refine ⟨cells, by rw [← hcells, List.map_map]; rfl, hkept, perm_faultsOf_mergeLists sources, ?_⟩
  rw [hkept, List.filter_eq_self]
  refine ⟨fun hall items hi hf => ?_, fun hnone cell hc => decide_eq_true fun hm => ?_⟩
  · by_cases hr : readable items = []
    · exact hr
    · obtain ⟨fault, hf⟩ := Option.ne_none_iff_exists'.mp hf
      obtain ⟨key, hb, hkey⟩ := exists_breakOff? hf hr
      have hmerge := isMergeOf_of_lookup hruns hasc hl
      obtain ⟨cell, hc, rfl⟩ := (hmerge.keys key).mpr ⟨_, List.mem_map_of_mem hi, hkey⟩
      have hbroken := List.mem_filterMap.mpr ⟨items, hi, hb⟩
      exact absurd (List.mem_map_of_mem hbroken) (of_decide_eq_true (hall cell hc))
  · obtain ⟨owing, ho, -⟩ := List.mem_map.mp hm
    obtain ⟨items, hi, hb⟩ := List.mem_filterMap.mp ho
    have hwhole : firstFault? items = none ∨ readable items = [] := by
      cases hf : firstFault? items with
      | none => exact Or.inl rfl
      | some fault => exact Or.inr (hnone items hi (by simp [hf]))
    simp [breakOff?_eq_none hwhole] at hb

/-- A fault behind the older version of a key costs the newer version, of a source without one. -/
theorem losses_of_two :
    ∃ cells : List Cell, mergeLists [[.ok ⟨[97], .present 1 [49]⟩],
        [.ok ⟨[97], .present 2 [50]⟩, .ok ⟨[98], .tombstone 3⟩]] = cells.map .ok ∧
      cellsOf (mergeLists [[.ok ⟨[97], .present 1 [49]⟩, .error (.damage .stampRange)],
        [.ok ⟨[97], .present 2 [50]⟩, .ok ⟨[98], .tombstone 3⟩]]) =
          cells.filter (fun cell => cell.key ∉ [[97]]) ∧
      (faultsOf (mergeLists [[.ok ⟨[97], .present 1 [49]⟩, .error (.damage .stampRange)],
        [.ok ⟨[97], .present 2 [50]⟩, .ok ⟨[98], .tombstone 3⟩]])).Perm
          [.damage .stampRange] := by
  have hascending : ∀ items ∈ ([[.ok ⟨[97], .present 1 [49]⟩, .error (.damage .stampRange)],
      [.ok ⟨[97], .present 2 [50]⟩, .ok ⟨[98], .tombstone 3⟩]] : List (List Item)),
      Ascending (readable items) := by
    unfold Ascending
    decide
  obtain ⟨cells, hcells, hkept, hfaults, -⟩ := mergeLists_losses hascending
  exact ⟨cells, hcells, hkept, hfaults⟩

/-- A source of one cell and a fault yields its fault alone, and its cell without the fault. -/
theorem cell_lost_to_fault :
    cellsOf (mergeLists [[.ok ⟨[97], .present 1 [49]⟩, .error (.damage (.other "bad"))]]) = [] ∧
      cellsOf (mergeLists [[.ok ⟨[97], .present 1 [49]⟩]]) = [⟨[97], .present 1 [49]⟩] := by
  constructor <;> decide +kernel

end TableStore

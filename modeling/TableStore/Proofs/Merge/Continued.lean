import Mathlib.Data.List.Forall2
import Mathlib.Logic.Basic
import TableStore.Proofs.Merge.Losses

/-! What a merge yields in front of its first fault, against the sources as they might have gone on.
A source that a fault ends could have held any cells of larger keys behind the fault. None of them
is missed at a key in front of which the source has a cell left to show: there the source holds what
each of its continuations does. The merge meets a fault no later than at the last key that the
faulted source shows, so the cells that come out before are the first ones of the merge of the
continued sources, up to the key at which some source is no longer read past it. -/

namespace TableStore

/-! ### Sources and their continuations -/

/-- A source shows a cell behind a key, or it has no fault, so that all that it could hold under the
key is among its cells. -/
def IsReadPast (items : List Item) (key : Bytes) : Prop :=
  firstFault? items = none ∨ ∃ cell ∈ readable items, key < cell.key

instance (items : List Item) (key : Bytes) : Decidable (IsReadPast items key) :=
  inferInstanceAs (Decidable (_ ∨ _))

/-- The cells of a source that holds further ones in place of its fault, if it has one. -/
structure Continues (items : List Item) (cells : List Cell) : Prop where
  front : readable items <+: cells
  whole : firstFault? items = none → cells = readable items

@[simp] theorem faultsOf_map_ok (cells : List Cell) : faultsOf (cells.map .ok) = [] := by
  simp [faultsOf, List.filterMap_map, Function.comp_def, Item.fault?]

/-- A source without a fault is its cells. -/
theorem map_ok_readable {items : List Item} (h : firstFault? items = none) :
    (readable items).map .ok = items := by
  induction items with
  | nil => rfl
  | cons item items ih =>
    cases item with
    | ok cell => rw [readable, List.map_cons, ih h]
    | error fault => simp [firstFault?] at h

theorem IsReadPast.mono {items : List Item} {key other : Bytes} (h : IsReadPast items key)
    (hlt : other < key) : IsReadPast items other :=
  h.imp id fun ⟨cell, hc, hk⟩ => ⟨cell, hc, List.lt_trans hlt hk⟩

theorem lookup_append (key : Bytes) (front back : List Cell) :
    lookup key (front ++ back) = (lookup key front).or (lookup key back) := by
  rw [lookup, lookup, lookup, List.find?_append, Option.map_or]

theorem Continues.ascending {items : List Item} {cells : List Cell} (h : Continues items cells)
    (ha : Ascending cells) : Ascending (readable items) := ha.sublist h.front.sublist

/-- A continuation adds nothing under a key that the source is read past. -/
theorem Continues.lookup_eq {items : List Item} {cells : List Cell} (h : Continues items cells)
    (ha : Ascending cells) {key : Bytes} (hp : IsReadPast items key) :
    lookup key cells = lookup key (readable items) := by
  rcases hp with hf | ⟨cell, hc, hk⟩
  · rw [h.whole hf]
  · obtain ⟨further, rfl⟩ := h.front
    have hnone : lookup key further = none := by
      refine lookup_eq_none_iff.mpr fun other ho he => ?_
      have hlt : cell.key < other.key := (List.pairwise_append.mp ha).2.2 cell hc other ho
      exact List.lt_irrefl _ (he ▸ List.lt_trans hk hlt)
    rw [lookup_append, hnone, Option.or_none]

section

variable {sources : List (List Item)} {continued : List (List Cell)}

theorem fronts_ascending (hc : List.Forall₂ Continues sources continued)
    (ha : ∀ cells ∈ continued, Ascending cells) :
    ∀ items ∈ sources, Ascending (readable items) := by
  induction hc with
  | nil => simp
  | cons h _ ih =>
    rw [List.forall_mem_cons] at ha ⊢
    exact ⟨h.ascending ha.1, ih ha.2⟩

theorem filterMap_lookup_continued (hc : List.Forall₂ Continues sources continued)
    (ha : ∀ cells ∈ continued, Ascending cells) {key : Bytes}
    (hp : ∀ items ∈ sources, IsReadPast items key) :
    continued.filterMap (lookup key) =
      sources.filterMap fun items => lookup key (readable items) := by
  induction hc with
  | nil => rfl
  | cons h _ ih =>
    rw [List.forall_mem_cons] at ha hp
    rw [List.filterMap_cons, List.filterMap_cons, h.lookup_eq ha.1 hp.1, ih ha.2 hp.2]

end

/-- The key that a fault stands behind is the last one that its source shows. -/
theorem not_lt_of_breakOff? {items : List Item} {key : Bytes} {fault : Fault}
    (h : breakOff? items = some (key, fault)) (ha : Ascending (readable items)) :
    ∀ cell ∈ readable items, ¬ key < cell.key := by
  fun_induction breakOff? items with
  | case1 cell own rest =>
    rw [Option.some.injEq, Prod.mk.injEq] at h
    intro other ho
    rw [List.mem_singleton.mp ho, ← h.1]
    exact List.lt_irrefl _
  | case2 cell rest hrest ih =>
    intro other ho hlt
    rcases List.mem_cons.mp ho with rfl | ho
    · obtain ⟨last, hl, hk⟩ := mem_readable_of_breakOff? h
      exact List.lt_irrefl _ (List.lt_trans (hk ▸ hlt) (ha.head_lt hl))
    · exact ih h ha.tail other ho hlt
  | case3 => simp at h

/-- A source that does not open with its fault is read past the keys in front of its last one. -/
theorem isReadPast_iff {items : List Item} (ha : Ascending (readable items))
    (hopens : firstFault? items = none ∨ readable items ≠ []) {key : Bytes} :
    IsReadPast items key ↔ ∀ owing ∈ breakOff? items, key < owing.1 := by
  cases hf : firstFault? items with
  | none => simp [IsReadPast, hf, breakOff?_eq_none (Or.inl hf)]
  | some fault =>
    obtain ⟨last, hb, own, ho, rfl⟩ := exists_breakOff? hf (hopens.resolve_left (by simp [hf]))
    simp only [IsReadPast, hf, hb, Option.mem_some_iff, forall_eq', reduceCtorEq, false_or]
    refine ⟨fun ⟨cell, hc, hk⟩ => ?_, fun hk => ⟨own, ho, hk⟩⟩
    exact lt_of_lt_of_not_lt hk (not_lt_of_breakOff? hb ha cell hc)

/-! ### Front parts of ascending cells -/

theorem Ascending.mem_takeWhile_iff {cells : List Cell} (ha : Ascending cells) {p : Bytes → Prop}
    [DecidablePred p] (hp : ∀ {key other}, p key → other < key → p other) {cell : Cell} :
    (cell ∈ cells.takeWhile fun cell => p cell.key) ↔ cell ∈ cells ∧ p cell.key := by
  induction cells with
  | nil => simp
  | cons first cells ih =>
    rw [List.takeWhile_cons, List.mem_cons]
    by_cases hfirst : p first.key
    · rw [if_pos (decide_eq_true hfirst), List.mem_cons, ih ha.tail, or_and_right]
      exact or_congr_left ⟨fun he => ⟨he, he ▸ hfirst⟩, And.left⟩
    · rw [if_neg (by simpa using hfirst)]
      refine iff_of_false List.not_mem_nil ?_
      rintro ⟨rfl | hm, hcell⟩
      · exact hfirst hcell
      · exact hfirst (hp hcell (ha.head_lt hm))

/-- Ascending cells that hold the same up to some key have the same front part up to there. -/
theorem takeWhile_eq_of_lookup {cells cells' : List Cell} (ha : Ascending cells)
    (ha' : Ascending cells') {p : Bytes → Prop} [DecidablePred p]
    (hp : ∀ {key other}, p key → other < key → p other)
    (hl : ∀ key, p key → lookup key cells = lookup key cells') :
    (cells.takeWhile fun cell => p cell.key) = cells'.takeWhile fun cell => p cell.key := by
  have hfront : Ascending (cells.takeWhile fun cell => p cell.key) :=
    ha.sublist (List.takeWhile_sublist _)
  refine hfront.eq_of_mem_iff (ha'.sublist (List.takeWhile_sublist _)) fun cell => ?_
  rw [ha.mem_takeWhile_iff hp, ha'.mem_takeWhile_iff hp]
  refine and_congr_left fun hcell => ?_
  rw [← ha.lookup_eq_some_iff, ← ha'.lookup_eq_some_iff, hl _ hcell]

/-! ### Up to the first fault -/

theorem readable_map_error_append {faults : List Fault} (h : faults ≠ []) (items : List Item) :
    readable (faults.map .error ++ items) = [] := by
  cases faults with
  | nil => exact absurd rfl h
  | cons fault faults => rfl

namespace Merge

/-- Up to its first fault a merge yields the cells that it would without the faults, as long as
their keys are in front of all keys that a fault stands behind. -/
theorem readable_toList {m : Merge (List Item)} (hn : m.faults = []) (ha : m.IsAscending)
    {cells : List Cell} (hc : (toFeed Feed.ofCells).toList m.unfaulted = cells.map .ok) :
    readable ((toFeed Feed.ofList).toList m) =
      cells.takeWhile fun cell => ∀ owing ∈ owed m.lanes, cell.key < owing.1 := by
  induction cells generalizing m with
  | nil =>
    have hp : m.unfaulted.pull Feed.ofCells = none := Feed.pull_of_toList_eq_nil hc
    rcases ha.pull_unfaulted with ⟨hf, -⟩ | ⟨before, top, behind, -, hs⟩
    · have hend : (toFeed Feed.ofList).pull m = none := by
        show m.pull Feed.ofList = none
        rw [pull, hn]
        simp only [hf]
      rw [Feed.toList_of_pull_none hend]
      rfl
    · simp [hp] at hs
  | cons cell cells ih =>
    obtain ⟨next, hp, hc⟩ := Feed.pull_of_toList_eq_cons hc
    change m.unfaulted.pull Feed.ofCells = _ at hp
    rcases ha.pull_unfaulted with ⟨-, hs⟩ | ⟨before, top, behind, hf, hs⟩
    · simp [hp] at hs
    · rw [hp, Option.some.injEq, Prod.mk.injEq, Except.ok.injEq] at hs
      obtain ⟨rfl, rfl⟩ := hs
      have hperm := owed_passed hf
      rw [toList_of_foremost hn hf, List.takeWhile_cons]
      by_cases hmet : (Merge.passed Feed.ofList before behind top).faults = []
      · -- no fault stood behind the key of this step: all that are owed stand behind later ones
        rw [hmet, List.map_nil, List.nil_append] at hperm
        have hlater : ∀ owing ∈ owed m.lanes, top.head.key < owing.1 :=
          fun owing ho => ha.lt_of_mem_owed hf (hperm.mem_iff.mp ho)
        rw [if_pos hmet, if_pos (decide_eq_true hlater), List.singleton_append, readable,
          ih rfl (ha.passed hf) hc]
        simp only [hperm.mem_iff]
      · obtain ⟨fault, hmem⟩ := List.exists_mem_of_ne_nil _ hmet
        have howed : (top.head.key, fault) ∈ owed m.lanes :=
          hperm.mem_iff.mpr (List.mem_append_left _ (List.mem_map_of_mem hmem))
        rw [if_neg hmet, readable_map_error_append hmet, if_neg]
        exact fun hd => List.lt_irrefl _ (of_decide_eq_true hd _ howed)

/-- The sources are opened without meeting a fault when none of them opens with its fault. -/
theorem faults_start {sources : List (List Item)}
    (h : ∀ items ∈ sources, firstFault? items = none ∨ readable items ≠ []) :
    (start Feed.ofList sources).faults = [] := by
  have hbehind : (sources.filterMap breakOff?).map Prod.snd = sources.filterMap firstFault? := by
    rw [List.map_filterMap]
    apply List.filterMap_congr
    intro items hi
    rcases h items hi with hf | hr
    · rw [hf, breakOff?_eq_none (Or.inl hf), Option.map_none]
    · exact map_snd_breakOff? hr
  have hlength := (due_start sources).length_eq
  rw [due, owed_start, hbehind, List.length_append] at hlength
  exact List.eq_nil_of_length_eq_zero (by omega)

theorem faults_start_ne_nil {sources : List (List Item)} {items : List Item} {fault : Fault}
    (h : items ∈ sources) (hf : firstFault? items = some fault) (hr : readable items = []) :
    (start Feed.ofList sources).faults ≠ [] := by
  rcases owes_start h hf with hm | ⟨lane, -, -, hl⟩
  · exact List.ne_nil_of_mem hm
  · exact absurd (hl _ List.mem_cons_self) (by simp [hr])

end Merge

/-- Up to its first fault a merge yields the cells that it would without the faults, as long as all
sources are read past their keys. -/
theorem readable_mergeLists {sources : List (List Item)}
    (ha : ∀ items ∈ sources, Ascending (readable items)) {cells : List Cell}
    (hc : mergeLists ((sources.map readable).map (List.map .ok)) = cells.map .ok) :
    readable (mergeLists sources) =
      cells.takeWhile fun cell => ∀ items ∈ sources, IsReadPast items cell.key := by
  by_cases hopens : ∀ items ∈ sources, firstFault? items = none ∨ readable items ≠ []
  · rw [mergeLists_map_ok, ← Merge.unfaulted_start] at hc
    have hlanes := Merge.isAscending_start ha
    rw [mergeLists, Merge.readable_toList (Merge.faults_start hopens) hlanes hc, Merge.owed_start]
    congr 1
    funext cell
    refine decide_eq_decide.mpr ⟨fun h items hi => ?_, fun h owing ho => ?_⟩
    · refine (isReadPast_iff (ha items hi) (hopens items hi)).mpr fun owing ho => ?_
      exact h owing (List.mem_filterMap.mpr ⟨items, hi, ho⟩)
    · obtain ⟨items, hi, ho⟩ := List.mem_filterMap.mp ho
      exact (isReadPast_iff (ha items hi) (hopens items hi)).mp (h items hi) owing ho
  · simp only [not_forall, not_or, not_not] at hopens
    obtain ⟨items, hi, hf, hr⟩ := hopens
    obtain ⟨fault, hf⟩ := Option.ne_none_iff_exists'.mp hf
    have hopen := Merge.faults_start_ne_nil hi hf hr
    rw [mergeLists, Merge.toList_of_faults, readable_map_error_append hopen]
    cases cells with
    | nil => rfl
    | cons cell cells =>
      rw [List.takeWhile_cons, if_neg]
      intro hd
      have hpast := of_decide_eq_true hd items hi
      simp [IsReadPast, hf, hr] at hpast

/-- Up to its first fault a merge yields the first cells of the merge of the continued sources:
those of the keys that all sources are read past. -/
theorem readable_mergeLists_continued {sources : List (List Item)} {continued : List (List Cell)}
    (hc : List.Forall₂ Continues sources continued) (ha : ∀ cells ∈ continued, Ascending cells) :
    ∃ cells, mergeLists (continued.map (List.map .ok)) = cells.map .ok ∧
      IsMergeOf continued cells ∧
      readable (mergeLists sources) =
        cells.takeWhile fun cell => ∀ items ∈ sources, IsReadPast items cell.key := by
  obtain ⟨cells, hcells, hasc, hlook⟩ := mergeLists_ascending ha
  refine ⟨cells, hcells, isMergeOf_of_lookup ha hasc hlook, ?_⟩
  have hfronts := fronts_ascending hc ha
  obtain ⟨fronts, hf, hfasc, hflook⟩ := mergeLists_ascending (List.forall_mem_map.mpr hfronts)
  rw [readable_mergeLists hfronts hf]
  refine takeWhile_eq_of_lookup (p := fun key => ∀ items ∈ sources, IsReadPast items key) hfasc hasc
    (fun hp hlt items hi => (hp items hi).mono hlt) fun key hp => ?_
  rw [hflook, hlook, List.filterMap_map, filterMap_lookup_continued hc ha hp]
  rfl

/-- A merge without faults has read all of its sources to their ends. -/
theorem firstFault?_of_mergeLists {sources : List (List Item)} {cells : List Cell}
    (h : mergeLists sources = cells.map .ok) : ∀ items ∈ sources, firstFault? items = none := by
  have hfaults := perm_faultsOf_mergeLists sources
  rw [h, faultsOf_map_ok] at hfaults
  exact List.filterMap_eq_nil_iff.mp hfaults.nil_eq.symm

/-- It yields the merge of their cells. -/
theorem isMergeOf_of_mergeLists {sources : List (List Item)} {cells : List Cell}
    (ha : ∀ items ∈ sources, Ascending (readable items))
    (h : mergeLists sources = cells.map .ok) :
    sources = (sources.map readable).map (List.map .ok) ∧
      IsMergeOf (sources.map readable) cells := by
  have hwhole : sources = (sources.map readable).map (List.map .ok) := by
    rw [List.map_map]
    refine (List.map_id' sources).symm.trans (List.map_congr_left fun items hi => ?_)
    exact (map_ok_readable (firstFault?_of_mergeLists h items hi)).symm
  have hruns : ∀ run ∈ sources.map readable, Ascending run := List.forall_mem_map.mpr ha
  obtain ⟨merged, hm, hasc, hlook⟩ := mergeLists_ascending hruns
  rw [hwhole, hm] at h
  obtain rfl := (List.map_inj_right fun _ _ => Except.ok.inj).mp h
  exact ⟨hwhole, isMergeOf_of_lookup hruns hasc hlook⟩

end TableStore

import TableStore.Proofs.Merge.Newest

/-! The merge against its reference. The reference names no lane and no step: of all the cells that
some sources hold under a key, one is the latest, newer than those of later sources and not older
than those of earlier ones. The reference of ascending sources is the ascending list of the latest
cell of each key that occurs. There is one such list, and it is what the merge of the sources
yields, over whatever feed they are read. -/

namespace TableStore

/-! ### The latest cell of a key -/

/-- A cell of one of the sources that no cell of its key outdoes: each of them is older, or it is of
the same age and in no later source. -/
def IsLatest (sources : List (List Cell)) (cell : Cell) : Prop :=
  ∃ (i : Nat) (source : List Cell), sources[i]? = some source ∧ cell ∈ source ∧
    ∀ (j : Nat) (other : List Cell), sources[j]? = some other →
      ∀ rival ∈ other, rival.key = cell.key →
        rival.version.Older cell.version ∨
          rival.version.stamp? = cell.version.stamp? ∧ j ≤ i

variable {sources : List (List Cell)}

theorem IsLatest.mem {cell : Cell} (h : IsLatest sources cell) : ∃ s ∈ sources, cell ∈ s := by
  obtain ⟨i, source, hi, hc, -⟩ := h
  exact ⟨source, List.mem_of_getElem? hi, hc⟩

/-- Two cells that do not outdo each other stand in one source. -/
theorem IsLatest.eq_of_key_eq (ha : ∀ s ∈ sources, Ascending s) {a b : Cell}
    (h : IsLatest sources a) (h' : IsLatest sources b) (hk : a.key = b.key) : a = b := by
  obtain ⟨i, s, hi, has, hbound⟩ := h
  obtain ⟨j, t, hj, hbt, hbound'⟩ := h'
  rcases hbound j t hj b hbt hk.symm with hba | ⟨hage, hji⟩
  · rcases hbound' i s hi a has hk with hab | ⟨hage, -⟩
    · exact absurd hab hba.asymm
    · exact absurd hage.symm hba.stamp?_ne
  · rcases hbound' i s hi a has hk with hab | ⟨-, hij⟩
    · exact absurd hage.symm hab.stamp?_ne
    · obtain rfl := Nat.le_antisymm hij hji
      obtain rfl := Option.some.inj (hi.symm.trans hj)
      have hs := ha s (List.mem_of_getElem? hi)
      exact Option.some.inj ((hs.find?_of_mem has).symm.trans (hk ▸ hs.find?_of_mem hbt))

/-- The newest of some versions stands between some that are not newer and some that are older. -/
theorem Version.exists_bounds_of_newest? {vs : List Version} {v : Version}
    (h : newest? vs = some v) :
    ∃ front back, vs = front ++ v :: back ∧ (∀ u ∈ front, ¬ v.Older u) ∧
      ∀ u ∈ back, u.Older v := by
  induction vs with
  | nil => simp [newest?] at h
  | cons w ws ih =>
    have hw := newest_of_newest?_eq_some h
    rw [newest_cons] at hw
    by_cases ho : ws ≠ [] ∧ ¬ (newest ws).Older w
    · obtain ⟨hne, ho⟩ := ho
      rw [later_of_not_newer ho] at hw
      obtain ⟨front, back, rfl, hf, hb⟩ := ih (by rw [newest?_eq_some hne, hw])
      refine ⟨w :: front, back, rfl, fun u hu => ?_, hb⟩
      rcases List.mem_cons.mp hu with rfl | hu
      · exact hw ▸ ho
      · exact hf u hu
    · have hfirst : w = v := by
        rw [newest?, newest_cons, Option.some.injEq] at h
        by_cases hne : ws = []
        · rw [← h, hne, newest_nil, later_absent_right]
        · rw [← h, later_of_newer (Classical.not_not.mp fun hn => ho ⟨hne, hn⟩)]
      subst hfirst
      refine ⟨[], ws, rfl, by simp, fun u hu => ?_⟩
      have hnewer := Classical.not_not.mp fun hn => ho ⟨List.ne_nil_of_mem hu, hn⟩
      exact older_of_not_older (not_newest_older hu) hnewer

/-- The source that holds the newest version of a key, among those before and behind it. -/
theorem exists_source_of_newest? {key : Bytes} {v : Version}
    (h : Version.newest? (sources.filterMap (lookup key)) = some v) :
    ∃ before source behind, sources = before ++ source :: behind ∧ lookup key source = some v ∧
      (∀ u ∈ before.filterMap (lookup key), ¬ v.Older u) ∧
      ∀ u ∈ behind.filterMap (lookup key), u.Older v := by
  obtain ⟨front, back, hsplit, hf, hb⟩ := Version.exists_bounds_of_newest? h
  obtain ⟨before, rest, rfl, rfl, hrest⟩ := List.filterMap_eq_append_iff.mp hsplit
  obtain ⟨silent, source, behind, rfl, hnone, hsource, rfl⟩ := List.filterMap_eq_cons_iff.mp hrest
  refine ⟨before ++ silent, source, behind, by simp, hsource, fun u hu => ?_, hb⟩
  rw [List.filterMap_append, List.filterMap_eq_nil_iff.mpr hnone, List.append_nil] at hu
  exact hf u hu

theorem isLatest_of_newest? (ha : ∀ s ∈ sources, Ascending s) {key : Bytes} {v : Version}
    (h : Version.newest? (sources.filterMap (lookup key)) = some v) :
    IsLatest sources ⟨key, v⟩ := by
  obtain ⟨before, source, behind, rfl, hv, hbefore, hbehind⟩ := exists_source_of_newest? h
  refine ⟨before.length, source, by simp, mem_of_lookup hv, fun j other hj rival hr hk => ?_⟩
  have hother := ha other (List.mem_of_getElem? hj)
  have hrival : lookup key other = some rival.version := by
    rw [← hother.lookup_of_mem hr, hk]
  rcases Nat.lt_trichotomy j before.length with hlt | rfl | hgt
  · rw [List.getElem?_append_left hlt] at hj
    have hmem := List.mem_filterMap.mpr ⟨other, List.mem_of_getElem? hj, hrival⟩
    by_cases ho : rival.version.Older v
    · exact Or.inl ho
    · have hage := Version.stamp?_eq_of_not_older ho (hbefore _ hmem)
      exact Or.inr ⟨hage, Nat.le_of_lt hlt⟩
  · rw [List.getElem?_append_right (Nat.le_refl _), Nat.sub_self, List.getElem?_cons_zero,
      Option.some.injEq] at hj
    obtain rfl := Option.some.inj (hv.symm.trans (hj ▸ hrival))
    exact Or.inr ⟨rfl, Nat.le_refl _⟩
  · obtain ⟨k, rfl⟩ := Nat.exists_eq_add_of_lt hgt
    rw [List.getElem?_append_right (by omega), Nat.add_assoc, Nat.add_sub_cancel_left,
      List.getElem?_cons_succ] at hj
    exact Or.inl (hbehind _ (List.mem_filterMap.mpr ⟨other, List.mem_of_getElem? hj, hrival⟩))

/-! ### The reference -/

theorem newest?_filterMap_ne_none_iff {α : Type} {f : α → Option Version} {l : List α} :
    Version.newest? (l.filterMap f) ≠ none ↔ ∃ a ∈ l, f a ≠ none := by
  cases hvs : l.filterMap f with
  | nil =>
    have hnone := List.filterMap_eq_nil_iff.mp hvs
    exact iff_of_false (by simp [Version.newest?]) fun ⟨a, ha, hf⟩ => hf (hnone a ha)
  | cons v vs =>
    have hv : v ∈ l.filterMap f := hvs ▸ List.mem_cons_self
    obtain ⟨a, ha, hf⟩ := List.mem_filterMap.mp hv
    exact iff_of_true (by simp [Version.newest?]) ⟨a, ha, by simp [hf]⟩

/-- The merge of some sources, said without one: the latest cell of each key, in order. -/
structure IsMergeOf (sources : List (List Cell)) (cells : List Cell) : Prop where
  ascending : Ascending cells
  keys : ∀ key, (∃ cell ∈ cells, cell.key = key) ↔ ∃ s ∈ sources, ∃ cell ∈ s, cell.key = key
  latest : ∀ cell ∈ cells, IsLatest sources cell

theorem IsMergeOf.mem_iff (ha : ∀ s ∈ sources, Ascending s) {cells : List Cell}
    (h : IsMergeOf sources cells) (cell : Cell) : cell ∈ cells ↔ IsLatest sources cell := by
  refine ⟨h.latest cell, fun hc => ?_⟩
  obtain ⟨s, hs, hm⟩ := hc.mem
  obtain ⟨own, ho, hk⟩ := (h.keys cell.key).mpr ⟨s, hs, cell, hm, rfl⟩
  exact (h.latest own ho).eq_of_key_eq ha hc hk ▸ ho

/-- The reference is one list. -/
theorem IsMergeOf.eq (ha : ∀ s ∈ sources, Ascending s) {cells cells' : List Cell}
    (h : IsMergeOf sources cells) (h' : IsMergeOf sources cells') : cells = cells' :=
  h.ascending.eq_of_mem_iff h'.ascending
    fun cell => (h.mem_iff ha cell).trans (h'.mem_iff ha cell).symm

theorem isMergeOf_of_lookup (ha : ∀ s ∈ sources, Ascending s) {cells : List Cell}
    (hasc : Ascending cells)
    (hl : ∀ key, lookup key cells = Version.newest? (sources.filterMap (lookup key))) :
    IsMergeOf sources cells where
  ascending := hasc
  keys := by
    intro key
    simp only [← lookup_ne_none_iff, hl]
    exact newest?_filterMap_ne_none_iff
  latest := by
    intro cell hc
    exact isLatest_of_newest? ha ((hl cell.key).symm.trans (hasc.lookup_of_mem hc))

/-- Sources that ascend and meet no fault, read by whatever feed, are merged into their reference,
which is one list. -/
theorem Merge.toList_isMergeOf {σ : Type} {f : Feed σ} {states : List σ}
    (hs : states.map f.toList = sources.map (List.map .ok)) (ha : ∀ s ∈ sources, Ascending s) :
    ∃ cells, (toFeed f).toList (start f states) = cells.map .ok ∧ IsMergeOf sources cells ∧
      ∀ other, IsMergeOf sources other → other = cells := by
  obtain ⟨cells, hcells, hasc, hl⟩ := mergeLists_ascending ha
  have hmerge := isMergeOf_of_lookup ha hasc hl
  exact ⟨cells, by rw [toList_start, hs, hcells], hmerge, fun other ho => ho.eq ha hmerge⟩

/-- A key with two versions of one age, an erased one, and an absent one under a key that a later
source has too. -/
theorem Merge.isMergeOf_of_tie :
    ∃ cells,
      mergeLists [[.ok ⟨[97], .present 5 [1]⟩, .ok ⟨[99], .absent⟩],
        [.ok ⟨[97], .tombstone 5⟩, .ok ⟨[98], .present 1 [2]⟩], [.ok ⟨[99], .absent⟩]] =
          cells.map .ok ∧
      IsMergeOf [[⟨[97], .present 5 [1]⟩, ⟨[99], .absent⟩],
        [⟨[97], .tombstone 5⟩, ⟨[98], .present 1 [2]⟩], [⟨[99], .absent⟩]] cells ∧
      ∀ other, IsMergeOf [[⟨[97], .present 5 [1]⟩, ⟨[99], .absent⟩],
        [⟨[97], .tombstone 5⟩, ⟨[98], .present 1 [2]⟩], [⟨[99], .absent⟩]] other →
        other = cells :=
  toList_isMergeOf (by simp [Feed.toList_ofList]) (by unfold Ascending; decide)

end TableStore

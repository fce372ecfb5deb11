import TableStore.Proofs.Merge.Latest

/-! Merges of merges. A merge is a feed, so it can be one of the sources of another merge, as the
merged memory is of a range. The newest of some versions stands where they stood: put in their place
among others, it leaves the newest of all what it was, also between versions of one age, since the
later one of them stands in either grouping. So a block of neighbouring sources may be merged first,
and the whole yields what it would without. -/

namespace TableStore

variable {σ τ : Type}

/-! ### Versions and lists -/

/-- The newest of a block of versions stands for the block. -/
theorem Version.newest?_regrouped (front block back : List Version) :
    newest? (front ++ ((newest? block).toList ++ back)) = newest? (front ++ (block ++ back)) := by
  cases block with
  | nil => rfl
  | cons v block =>
    have hgrouped : newest (front ++ ([newest (v :: block)] ++ back)) =
        newest (front ++ (v :: block ++ back)) := by
      rw [newest_append, newest_append, newest_append, newest_append _ back, newest_cons _ [],
        newest_nil, later_absent_right]
    rw [newest?, Option.toList_some, newest?_eq_some (by simp), newest?_eq_some (by simp),
      hgrouped]

/-- A block of ascending sources may be merged before the others are. -/
theorem mergeLists_regrouped {front block back : List (List Cell)}
    (h : ∀ s ∈ front ++ (block ++ back), Ascending s) :
    mergeLists (front.map (List.map .ok) ++
        mergeLists (block.map (List.map .ok)) :: back.map (List.map .ok)) =
      mergeLists ((front ++ (block ++ back)).map (List.map .ok)) := by
  obtain ⟨merged, hmerged, hmasc, hmlook⟩ := mergeLists_ascending
    fun s hs => h s (List.mem_append_right _ (List.mem_append_left _ hs))
  obtain ⟨flat, hflat, hfasc, hflook⟩ := mergeLists_ascending h
  have hnested : ∀ s ∈ front ++ merged :: back, Ascending s := by
    intro s hs
    rw [List.mem_append, List.mem_cons] at hs
    rcases hs with hs | rfl | hs
    · exact h s (List.mem_append_left _ hs)
    · exact hmasc
    · exact h s (List.mem_append_right _ (List.mem_append_right _ hs))
  obtain ⟨cells, hcells, hasc, hlook⟩ := mergeLists_ascending hnested
  rw [List.map_append, List.map_cons] at hcells
  rw [hmerged, hcells, hflat]
  congr 1
  -- Under each key both hold the newest version of all, in whichever grouping.
  refine hasc.eq_of_lookup hfasc fun key => ?_
  have hblock : (merged :: back).filterMap (lookup key) =
      (Version.newest? (block.filterMap (lookup key))).toList ++ back.filterMap (lookup key) := by
    rw [List.filterMap_cons, hmlook]
    cases Version.newest? (block.filterMap (lookup key)) <;> rfl
  rw [hlook, hflook, List.filterMap_append, hblock, Version.newest?_regrouped,
    List.filterMap_append, List.filterMap_append]

/-! ### Sources of two kinds -/

/-- Two feeds beside each other: a source is read by the feed of its kind. -/
def Feed.beside (f : Feed σ) (g : Feed τ) : Feed (σ ⊕ τ) where
  pull
    | .inl s => (f.pull s).map fun step => (step.1, .inl step.2)
    | .inr t => (g.pull t).map fun step => (step.1, .inr step.2)
  remaining
    | .inl s => f.remaining s
    | .inr t => g.remaining t
  remaining_lt := by
    intro s i s' h
    cases s with
    | inl s =>
      obtain ⟨step, hs, he⟩ := Option.map_eq_some_iff.mp h
      simp only [Prod.mk.injEq] at he
      rw [← he.2]
      exact f.remaining_lt hs
    | inr t =>
      obtain ⟨step, hs, he⟩ := Option.map_eq_some_iff.mp h
      simp only [Prod.mk.injEq] at he
      rw [← he.2]
      exact g.remaining_lt hs

theorem Feed.toList_inl (f : Feed σ) (g : Feed τ) (s : σ) :
    (f.beside g).toList (.inl s) = f.toList s := by
  have hseen : f.SeenAs (f.beside g) .inl := fun _ => rfl
  exact hseen.toList_eq s

theorem Feed.toList_inr (f : Feed σ) (g : Feed τ) (t : τ) :
    (f.beside g).toList (.inr t) = g.toList t := by
  have hseen : g.SeenAs (f.beside g) .inr := fun _ => rfl
  exact hseen.toList_eq t

namespace Merge

/-- The sources of a merge in which a block of neighbours is one source, the merge of the block. -/
def nested (f : Feed σ) (front block back : List σ) : List (σ ⊕ Merge σ) :=
  front.map .inl ++ .inr (start f block) :: back.map .inl

/-- Such sources are read as lists of which one is a merge. -/
theorem toList_nested (f : Feed σ) (front block back : List σ) :
    (toFeed (f.beside (toFeed f))).toList
        (start (f.beside (toFeed f)) (nested f front block back)) =
      mergeLists (front.map f.toList ++ mergeLists (block.map f.toList) :: back.map f.toList) := by
  rw [toList_start, nested, List.map_append, List.map_cons, List.map_map, List.map_map,
    Feed.toList_inr, toList_start]
  simp only [Function.comp_def, Feed.toList_inl]

/-- A merge yields the same whether a block of neighbouring sources is merged on its own first or
not, for sources that ascend and meet no fault, and in both cases it yields their reference. -/
theorem toList_regrouped {f : Feed σ} {front block back : List σ} {sources : List (List Cell)}
    (hs : (front ++ block ++ back).map f.toList = sources.map (List.map .ok))
    (ha : ∀ s ∈ sources, Ascending s) :
    ∃ cells, IsMergeOf sources cells ∧
      (toFeed f).toList (start f (front ++ block ++ back)) = cells.map .ok ∧
      (toFeed (f.beside (toFeed f))).toList
        (start (f.beside (toFeed f)) (nested f front block back)) = cells.map .ok := by
  obtain ⟨cells, hcells, hasc, hl⟩ := mergeLists_ascending ha
  have hflat : (toFeed f).toList (start f (front ++ block ++ back)) = cells.map .ok := by
    rw [toList_start, hs, hcells]
  refine ⟨cells, isMergeOf_of_lookup ha hasc hl, hflat, ?_⟩
  rw [List.append_assoc, List.map_append, List.map_append, eq_comm, List.map_eq_append_iff] at hs
  obtain ⟨before, rest, rfl, hbefore, hrest⟩ := hs
  obtain ⟨inside, behind, rfl, hinside, hbehind⟩ := List.map_eq_append_iff.mp hrest
  rw [toList_nested, ← hbefore, ← hinside, ← hbehind, mergeLists_regrouped ha, hcells]

/-- One key in four sources, of one age in three of them: in front of the block, in it and behind
it. The block's cell of that key gives way to the one behind. -/
theorem regrouped_of_ties :
    ∃ cells, IsMergeOf [[⟨[97], .present 5 [1]⟩], [⟨[97], .tombstone 5⟩, ⟨[98], .present 2 [2]⟩],
        [⟨[97], .present 1 [3]⟩, ⟨[98], .tombstone 2⟩], [⟨[97], .present 5 [4]⟩]] cells ∧
      (toFeed Feed.ofList).toList (start Feed.ofList ([[.ok ⟨[97], .present 5 [1]⟩]] ++
        [[.ok ⟨[97], .tombstone 5⟩, .ok ⟨[98], .present 2 [2]⟩],
          [.ok ⟨[97], .present 1 [3]⟩, .ok ⟨[98], .tombstone 2⟩]] ++
        [[.ok ⟨[97], .present 5 [4]⟩]])) = cells.map .ok ∧
      (toFeed (Feed.ofList.beside (toFeed Feed.ofList))).toList
        (start (Feed.ofList.beside (toFeed Feed.ofList)) (nested Feed.ofList
          [[.ok ⟨[97], .present 5 [1]⟩]]
          [[.ok ⟨[97], .tombstone 5⟩, .ok ⟨[98], .present 2 [2]⟩],
            [.ok ⟨[97], .present 1 [3]⟩, .ok ⟨[98], .tombstone 2⟩]]
          [[.ok ⟨[97], .present 5 [4]⟩]])) = cells.map .ok :=
  toList_regrouped (by simp [Feed.toList_ofList]) (by unfold Ascending; decide)

end Merge

end TableStore

import TableStore.Proofs.Merge.Newest

/-! What a merge keeps of one source whatever the others hold. When the cells of a source ascend
and the merge meets no fault, each of these cells comes out under its key, or a version that is
not older comes out in its place. The lane of the source loses a cell only in a step that takes
the same key, and what that step yields leads every lane, this one included. -/

namespace TableStore

namespace Merge

/-- A merge has the given cells, and nothing else, still to read from one of its sources. -/
def Shows (m : Merge (List Item)) : List Cell → Prop
  | [] => True
  | cell :: rest => ⟨cell, rest.map .ok⟩ ∈ m.lanes

theorem Shows.of_subset {m next : Merge (List Item)} {cells : List Cell} (h : m.Shows cells)
    (hs : ∀ lane ∈ m.lanes, lane ∈ next.lanes) : next.Shows cells := by
  cases cells with
  | nil => trivial
  | cons cell rest => exact hs _ h

theorem shows_place (before behind : List (Lane (List Item))) (cells : List Cell)
    (faults : List Fault) :
    (place Feed.ofList before behind (cells.map .ok) faults).Shows cells := by
  cases cells with
  | nil => trivial
  | cons cell rest => exact List.mem_append_right _ List.mem_cons_self

/-- The lane that a step moves is the source's own, or the source's lane stays. -/
theorem Shows.place_of_foremost {m : Merge (List Item)} {before behind : List (Lane (List Item))}
    {lane : Lane (List Item)} {cells : List Cell} (h : m.Shows cells)
    (hf : foremost m.lanes = some (before, lane, behind)) (faults : List Fault) :
    (place Feed.ofList before behind lane.rest faults).Shows cells ∨
      ∃ rest, cells = lane.head :: rest ∧
        (place Feed.ofList before behind lane.rest faults).Shows rest := by
  cases cells with
  | nil => exact Or.inl trivial
  | cons cell rest =>
    have hm : (⟨cell, rest.map .ok⟩ : Lane (List Item)) ∈ m.lanes := h
    rw [eq_of_foremost hf, List.mem_append, List.mem_cons] at hm
    rcases hm with hm | rfl | hm
    · exact Or.inl (mem_lanes_place (List.mem_append_left _ hm) _ _)
    · exact Or.inr ⟨rest, rfl, shows_place before behind rest faults⟩
    · exact Or.inl (mem_lanes_place (List.mem_append_right _ hm) _ _)

theorem Shows.skip {m : Merge (List Item)} {cells : List Cell} (key : Bytes) (h : m.Shows cells)
    (ha : Ascending cells) :
    (skip Feed.ofList key m).Shows cells ∨
      ∃ cell rest, cells = cell :: rest ∧ cell.key = key ∧
        (skip Feed.ofList key m).Shows rest := by
  fun_induction Merge.skip Feed.ofList key m generalizing cells with
  | case1 m hf => exact Or.inl h
  | case2 m before lane behind hf hk ih =>
    rcases h.place_of_foremost hf m.faults with hp | ⟨rest, rfl, hp⟩
    · exact ih hp ha
    · rcases ih hp ha.tail with hs | ⟨cell, rest', rfl, hc, hs⟩
      · exact Or.inr ⟨lane.head, rest, rfl, hk, hs⟩
      · have hlt := ha.head_lt List.mem_cons_self
        rw [hk, hc] at hlt
        exact absurd hlt (List.lt_irrefl key)
  | case3 m before lane behind hf hk => exact Or.inl h

/-- A step that yields a cell keeps a source's cells, but for one with the key of the cell and no
newer version. -/
theorem Shows.pull {m next : Merge (List Item)} {cells : List Cell} {out : Cell}
    (h : m.Shows cells) (ha : Ascending cells)
    (hp : m.pull Feed.ofList = some (.ok out, next)) :
    next.Shows cells ∨
      ∃ cell rest, cells = cell :: rest ∧ cell.key = out.key ∧
        ¬ out.version.Older cell.version ∧ next.Shows rest := by
  obtain ⟨before, top, behind, -, hf, rfl, rfl, -⟩ := pull_eq_some_ok hp
  obtain ⟨hbefore, hbehind⟩ := foremost_leads hf
  have hfirst : ∀ {cell rest}, cells = cell :: rest → cell.key = top.head.key →
      ¬ top.head.version.Older cell.version := by
    rintro cell rest rfl hk
    have hm : (⟨cell, rest.map .ok⟩ : Lane (List Item)) ∈ m.lanes := h
    rw [eq_of_foremost hf, List.mem_append, List.mem_cons] at hm
    rcases hm with hm | rfl | hm
    · exact (hbefore _ hm).2 hk
    · exact Version.not_older_self _
    · exact ((hbehind _ hm).2 hk).asymm
  rcases h.place_of_foremost hf [] with hs | ⟨rest, rfl, hs⟩
  · rcases hs.skip top.head.key ha with hs | ⟨cell, rest, rfl, hk, hs⟩
    · exact Or.inl hs
    · exact Or.inr ⟨cell, rest, rfl, hk, hfirst rfl hk, hs⟩
  · rcases hs.skip top.head.key ha.tail with hs | ⟨cell, rest', rfl, hk, hs⟩
    · exact Or.inr ⟨top.head, rest, rfl, rfl, Version.not_older_self _, hs⟩
    · have hlt := ha.head_lt List.mem_cons_self
      rw [hk] at hlt
      exact absurd hlt (List.lt_irrefl _)

theorem Shows.of_pull_eq_none {m : Merge (List Item)} {cells : List Cell} (h : m.Shows cells)
    (hp : m.pull Feed.ofList = none) : cells = [] := by
  cases cells with
  | nil => rfl
  | cons cell rest =>
    unfold Merge.pull at hp
    split at hp
    · simp at hp
    · split at hp
      · rename_i hf
        have hm : (⟨cell, rest.map .ok⟩ : Lane (List Item)) ∈ m.lanes := h
        simp [foremost_eq_none_iff.mp hf] at hm
      · simp at hp

theorem Shows.toList {m : Merge (List Item)} {cells out : List Cell} (h : m.Shows cells)
    (ha : Ascending cells) (hl : (toFeed Feed.ofList).toList m = out.map .ok) :
    ∀ cell ∈ cells, ∃ o ∈ out, o.key = cell.key ∧ ¬ o.version.Older cell.version := by
  induction out generalizing m cells with
  | nil => simp [h.of_pull_eq_none (Feed.pull_of_toList_eq_nil hl)]
  | cons o out ih =>
    obtain ⟨next, hp, hl⟩ := Feed.pull_of_toList_eq_cons hl
    intro cell hc
    rcases h.pull ha hp with hs | ⟨first, rest, rfl, hk, hv, hs⟩
    · obtain ⟨o', hm, ho⟩ := ih hs ha hl cell hc
      exact ⟨o', List.mem_cons_of_mem _ hm, ho⟩
    · rcases List.mem_cons.mp hc with rfl | hc
      · exact ⟨o, List.mem_cons_self, hk.symm, hv⟩
      · obtain ⟨o', hm, ho⟩ := ih hs ha.tail hl cell hc
        exact ⟨o', List.mem_cons_of_mem _ hm, ho⟩

theorem shows_start {sources : List (List Item)} {cells : List Cell}
    (h : cells.map .ok ∈ sources) : (start Feed.ofList sources).Shows cells :=
  start_keeps (p := (Shows · cells)) h (fun m => shows_place m.lanes [] cells m.faults)
    fun _ _ hm => hm.of_subset fun _ hl => mem_lanes_place (List.mem_append_left _ hl) _ _

end Merge

/-- A merge without faults keeps each cell of an ascending source, or a version of its key that is
not older. -/
theorem mergeLists_keeps {sources : List (List Item)} {cells out : List Cell}
    (h : cells.map .ok ∈ sources) (ha : Ascending cells)
    (hm : mergeLists sources = out.map .ok) :
    ∀ cell ∈ cells, ∃ o ∈ out, o.key = cell.key ∧ ¬ o.version.Older cell.version :=
  (Merge.shows_start h).toList ha hm

end TableStore

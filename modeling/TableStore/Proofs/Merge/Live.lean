import Mathlib.Data.List.Basic
import TableStore.Proofs.Merge.Faults

/-! Merges over sources that change while they are read. What a source still has to yield lies
behind the cell that it yielded last, so a cell that is written to it joins what is to come only
behind a cell that it had still to yield. A merge keeps its place between its sources in the same
way: where one of them takes the written cell in, the merge does, and as it has a cell still to
yield in front of it, no key is ever yielded twice. -/

namespace TableStore

variable {σ : Type}

/-! ### Feeds that ascend -/

/-- The cells that a feed yields in front of its first fault. -/
def Feed.cells (f : Feed σ) (s : σ) : List Cell := readable (f.toList s)

theorem Feed.cells_of_pull_none {f : Feed σ} {s : σ} (h : f.pull s = none) : f.cells s = [] := by
  rw [Feed.cells, Feed.toList_of_pull_none h]
  rfl

theorem Feed.cells_of_pull_ok {f : Feed σ} {s next : σ} {cell : Cell}
    (h : f.pull s = some (.ok cell, next)) : f.cells s = cell :: f.cells next := by
  rw [Feed.cells, Feed.toList_of_pull_some h]
  rfl

/-- A feed ascends: in a state that follows a cell it has ended, or it yields a cell behind that one
and goes on to a state that follows the cell yielded. -/
def Feed.Ascends (f : Feed σ) (follows : Cell → σ → Prop) : Prop :=
  ∀ head rest, follows head rest → f.pull rest = none ∨
    ∃ cell next, f.pull rest = some (.ok cell, next) ∧ head.key < cell.key ∧ follows cell next

/-- A source can become a lane, unless it is empty. -/
def Feed.Opens (f : Feed σ) (follows : Cell → σ → Prop) (rest : σ) : Prop :=
  f.pull rest = none ∨ ∃ cell next, f.pull rest = some (.ok cell, next) ∧ follows cell next

theorem Feed.Ascends.opens {f : Feed σ} {follows : Cell → σ → Prop} (h : f.Ascends follows)
    {head : Cell} {rest : σ} (hs : follows head rest) : f.Opens follows rest :=
  (h head rest hs).imp id fun ⟨cell, next, hp, _, hn⟩ => ⟨cell, next, hp, hn⟩

theorem Feed.Ascends.toList {f : Feed σ} {follows : Cell → σ → Prop} (h : f.Ascends follows)
    {head : Cell} {rest : σ} (hs : follows head rest) :
    f.toList rest = (f.cells rest).map .ok ∧ Ascending (head :: f.cells rest) := by
  unfold Feed.cells
  fun_induction Feed.toList f rest generalizing head with
  | case1 rest hp => exact ⟨rfl, List.pairwise_singleton _ _⟩
  | case2 rest item next hp ih =>
    rcases h head rest hs with hend | ⟨cell, next', hp', hlt, hn⟩
    · simp [hp] at hend
    · rw [hp, Option.some.injEq, Prod.mk.injEq] at hp'
      obtain ⟨rfl, rfl⟩ := hp'
      obtain ⟨hlist, hasc⟩ := ih hn
      exact ⟨congrArg (_ :: ·) hlist, hasc.cons hlt⟩

namespace Merge

variable {f : Feed σ} {follows : Cell → σ → Prop} {m : Merge σ} {lane : Lane σ}

/-! ### Merges of such feeds -/

/-- A merge that has met no fault, with lanes in states that follow their heads. -/
structure Follows (follows : Cell → σ → Prop) (m : Merge σ) : Prop where
  faults : m.faults = []
  lanes : ∀ lane ∈ m.lanes, follows lane.head lane.rest

theorem follows_place {before behind : List (Lane σ)} {rest : σ}
    (h : ∀ lane ∈ before ++ behind, follows lane.head lane.rest) (hr : f.Opens follows rest) :
    (place f before behind rest []).Follows follows := by
  unfold place
  rcases hr with hp | ⟨cell, next, hp, hn⟩ <;> rw [hp]
  · exact ⟨rfl, h⟩
  · refine ⟨rfl, fun lane hm => ?_⟩
    rw [List.mem_append, List.mem_cons] at hm
    rcases hm with hm | rfl | hm
    · exact h lane (List.mem_append_left _ hm)
    · exact hn
    · exact h lane (List.mem_append_right _ hm)

/-- Opening sources that can become lanes. -/
theorem follows_start {sources : List σ} (h : ∀ source ∈ sources, f.Opens follows source) :
    (start f sources).Follows follows := by
  have hfold : ∀ m : Merge σ, m.Follows follows →
      (sources.foldl (fun m rest => place f m.lanes [] rest m.faults) m).Follows follows := by
    induction sources with
    | nil => exact fun m hm => hm
    | cons source sources ih =>
      intro m hm
      refine ih (fun other ho => h other (List.mem_cons_of_mem _ ho)) _ ?_
      dsimp only
      rw [hm.faults]
      exact follows_place (by simpa using hm.lanes) (h source List.mem_cons_self)
  exact hfold ⟨[], []⟩ ⟨rfl, by simp⟩

theorem Follows.place_of_foremost (hf : f.Ascends follows) (h : m.Follows follows)
    {before behind : List (Lane σ)} (hm : foremost m.lanes = some (before, lane, behind)) :
    (place f before behind lane.rest []).Follows follows := by
  have hl := eq_of_foremost hm
  refine follows_place (fun other ho => h.lanes other ?_) (hf.opens (h.lanes lane (by simp [hl])))
  rw [List.mem_append] at ho
  rw [hl, List.mem_append]
  exact ho.imp id (List.mem_cons_of_mem _)

theorem Follows.skip (hf : f.Ascends follows) (h : m.Follows follows) (key : Bytes) :
    (skip f key m).Follows follows := by
  fun_induction Merge.skip f key m with
  | case1 => exact h
  | case2 m before lane behind hm hk ih =>
    rw [h.faults] at ih ⊢
    exact ih (h.place_of_foremost hf hm)
  | case3 => exact h

/-- What such a merge yields: no faults, ascending cells, and under each key the newest version of
the lanes. -/
theorem Follows.toList (hf : f.Ascends follows) (h : m.Follows follows) :
    (toFeed f).toList m = ((toFeed f).cells m).map .ok ∧ Ascending ((toFeed f).cells m) ∧
      ∀ key, lookup key ((toFeed f).cells m) = Version.newest?
        (m.lanes.filterMap fun lane => lookup key (lane.head :: f.cells lane.rest)) := by
  have hview : m.map f.toList = (m.map f.cells).map (List.map .ok) := by
    unfold map
    rw [List.map_map]
    congr 1
    refine List.map_congr_left fun lane hm => ?_
    rw [Lane.map, (hf.toList (h.lanes lane hm)).1]
    rfl
  have hlist : (toFeed f).toList m = (toFeed Feed.ofCells).toList (m.map f.cells) := by
    rw [← (seenAs_toFeed f.seenAs_ofList).toList_eq, hview,
      (seenAs_toFeed Feed.seenAs_ofCells).toList_eq]
  obtain ⟨cells, hcells, hasc, hlook⟩ := toList_ofCells (m := m.map f.cells) h.faults (by
    intro seen hs
    obtain ⟨lane, hl, rfl⟩ := List.mem_map.mp hs
    exact (hf.toList (h.lanes lane hl)).2)
  have heq : (toFeed f).cells m = cells := by rw [Feed.cells, hlist, hcells, readable_map_ok]
  rw [heq]
  refine ⟨hlist.trans hcells, hasc, fun key => (hlook key).trans ?_⟩
  rw [versionsUnder, map, List.filterMap_map]
  rfl

/-- Under each key of a lane the merge yields a cell. -/
theorem Follows.exists_cell (hf : f.Ascends follows) (h : m.Follows follows) (hm : lane ∈ m.lanes)
    {c : Cell} (hc : c ∈ lane.head :: f.cells lane.rest) :
    ∃ d ∈ (toFeed f).cells m, d.key = c.key := by
  have hlane := (hf.toList (h.lanes lane hm)).2.lookup_of_mem hc
  have hmem : c.version ∈ m.lanes.filterMap fun lane =>
      lookup c.key (lane.head :: f.cells lane.rest) := List.mem_filterMap.mpr ⟨lane, hm, hlane⟩
  have hlook := (h.toList hf).2.2 c.key
  rw [Version.newest?_eq_some (List.ne_nil_of_mem hmem)] at hlook
  exact ⟨_, mem_of_lookup hlook, rfl⟩

/-- A merge of which all lanes start behind a cell. -/
def Ahead (follows : Cell → σ → Prop) (head : Cell) (m : Merge σ) : Prop :=
  m.Follows follows ∧ ∀ lane ∈ m.lanes, head.key < lane.head.key

/-- A step takes the head of a lane, and all lanes are behind it afterwards. -/
theorem Follows.pull (hf : f.Ascends follows) (h : m.Follows follows) :
    m.pull f = none ∧ m.lanes = [] ∨
      ∃ top ∈ m.lanes, ∃ next, m.pull f = some (.ok top.head, next) ∧
        Ahead follows top.head next := by
  cases hm : foremost m.lanes with
  | none =>
    refine Or.inl ⟨?_, foremost_eq_none_iff.mp hm⟩
    rw [Merge.pull, h.faults]
    simp only [hm]
  | some found =>
    obtain ⟨before, top, behind⟩ := found
    have hnext : (passed f before behind top).Follows follows :=
      (h.place_of_foremost hf hm).skip hf top.head.key
    have hpull : m.pull f = some (.ok top.head, passed f before behind top) := by
      rw [Merge.pull, h.faults]
      simp only [hm]
      rw [← passed, settle, hnext.faults]
    refine Or.inr ⟨top, by simp [eq_of_foremost hm], _, hpull, hnext, fun lane hl => ?_⟩
    have hasc := (h.toList hf).2.1
    rw [Feed.cells_of_pull_ok (f := toFeed f) hpull] at hasc
    obtain ⟨d, hd, hk⟩ := hnext.exists_cell hf hl List.mem_cons_self
    exact hk ▸ hasc.head_lt hd

theorem Follows.of_pull (hf : f.Ascends follows) (h : m.Follows follows) {item : Item}
    {next : Merge σ} (hp : m.pull f = some (item, next)) :
    next.Follows follows ∧ ∃ cell, item = .ok cell := by
  rcases h.pull hf with ⟨hend, -⟩ | ⟨top, -, next', hp', hn⟩
  · simp [hp] at hend
  · rw [hp, Option.some.injEq, Prod.mk.injEq] at hp'
    exact ⟨hp'.2 ▸ hn.1, _, hp'.1⟩

theorem Follows.opens (hf : f.Ascends follows) (h : m.Follows follows) :
    (toFeed f).Opens (Ahead follows) m :=
  (h.pull hf).imp And.left fun ⟨top, _, next, hp, hn⟩ => ⟨top.head, next, hp, hn⟩

theorem ascends_toFeed (hf : f.Ascends follows) : (toFeed f).Ascends (Ahead follows) := by
  rintro head m ⟨h, hlt⟩
  exact (h.pull hf).imp And.left fun ⟨top, hm, next, hp, hn⟩ =>
    ⟨top.head, next, hp, hlt top hm, hn⟩

end Merge

/-! ### Cells written while they are read -/

/-- What is still to be read becomes of cells when one may have been written: under each key it is
what it was, or what was written, and then something comes before it. -/
def Grows (written : Option Cell) (cells cells' : List Cell) : Prop :=
  ∀ key, lookup key cells' = lookup key cells ∨
    ∃ w ∈ written, w.key = key ∧ lookup key cells' = some w.version ∧ ∃ c ∈ cells, c.key < key

/-- What was written is newer than what was there. -/
def IsNews (written : Option Cell) (cells : List Cell) : Prop :=
  ∀ w ∈ written, ∀ v, lookup w.key cells = some v → v.Older w.version

variable {written : Option Cell} {cells cells' : List Cell}

theorem Grows.refl (written : Option Cell) (cells : List Cell) : Grows written cells cells :=
  fun _ => Or.inl rfl

theorem Grows.cons (h : Grows written cells cells') (head : Cell) :
    Grows written (head :: cells) (head :: cells') := by
  intro key
  rw [lookup_cons, lookup_cons]
  split
  · exact Or.inl rfl
  · exact (h key).imp id fun ⟨w, hw, hk, hl, c, hc, hlt⟩ =>
      ⟨w, hw, hk, hl, c, List.mem_cons_of_mem _ hc, hlt⟩

theorem IsNews.of_cons {head : Cell} (h : IsNews written (head :: cells))
    (ha : Ascending (head :: cells)) : IsNews written cells :=
  fun w hw v hl => h w hw v (ha.lookup_of_mem (List.mem_cons_of_mem _ (mem_of_lookup hl)))

/-- Of the cells behind a change, each was there or is the one written. -/
theorem Grows.mem (h : Grows written cells cells') (ha : Ascending cells') {c : Cell}
    (hc : c ∈ cells') : c ∈ cells ∨ c ∈ written ∧ ∃ d ∈ cells, d.key < c.key := by
  have hlook := ha.lookup_of_mem hc
  rcases h c.key with hsame | ⟨w, hw, hk, hnew, hfront⟩
  · exact Or.inl (mem_of_lookup (hsame.symm.trans hlook))
  · rw [hlook, Option.some.injEq] at hnew
    obtain rfl : c = w := by
      cases c
      cases w
      simp_all
    exact Or.inr ⟨hw, hfront⟩

/-- The cells under keys that are not written stay. -/
theorem Grows.lookup_eq (h : Grows written cells cells') {key : Bytes}
    (hk : ∀ w ∈ written, w.key ≠ key) : lookup key cells' = lookup key cells :=
  (h key).resolve_right fun ⟨w, hw, he, _⟩ => hk w hw he

/-- One feed goes on for another, from the states that follow a cell: these states follow it still,
and what is to be read from them has grown. -/
def Feed.Carries (f f' : Feed σ) (written : Option Cell) (follows follows' : Cell → σ → Prop) :
    Prop :=
  ∀ head rest, follows head rest → follows' head rest ∧
    (IsNews written (head :: f.cells rest) →
      Grows written (head :: f.cells rest) (head :: f'.cells rest))

namespace Merge

variable {f f' : Feed σ} {follows follows' : Cell → σ → Prop} {m : Merge σ}

/-- A version that a lane holds is not newer than what the merge yields under its key. -/
theorem Follows.isNews_lane (hf : f.Ascends follows) (h : m.Follows follows)
    (hnews : IsNews written ((toFeed f).cells m)) {lane : Lane σ} (hm : lane ∈ m.lanes) :
    IsNews written (lane.head :: f.cells lane.rest) := by
  intro w hw v hv
  have hmem : v ∈ m.lanes.filterMap fun lane => lookup w.key (lane.head :: f.cells lane.rest) :=
    List.mem_filterMap.mpr ⟨lane, hm, hv⟩
  have hlook := (h.toList hf).2.2 w.key
  rw [Version.newest?_eq_some (List.ne_nil_of_mem hmem)] at hlook
  exact Version.older_of_not_older (Version.not_newest_older hmem) (hnews w hw _ hlook)

/-- Where the lanes grow, what the merge yields does. -/
theorem Follows.grows (hf : f.Ascends follows) (hf' : f'.Ascends follows')
    (hc : f.Carries f' written follows follows') (h : m.Follows follows) :
    m.Follows follows' ∧ (IsNews written ((toFeed f).cells m) →
      Grows written ((toFeed f).cells m) ((toFeed f').cells m)) := by
  have h' : m.Follows follows' :=
    ⟨h.faults, fun lane hm => (hc _ _ (h.lanes lane hm)).1⟩
  refine ⟨h', fun hnews key => ?_⟩
  have hlane : ∀ lane ∈ m.lanes,
      Grows written (lane.head :: f.cells lane.rest) (lane.head :: f'.cells lane.rest) :=
    fun lane hm => (hc _ _ (h.lanes lane hm)).2 (h.isNews_lane hf hnews hm)
  rw [(h.toList hf).2.2, (h'.toList hf').2.2]
  by_cases hsame : ∀ lane ∈ m.lanes, lookup key (lane.head :: f'.cells lane.rest) =
      lookup key (lane.head :: f.cells lane.rest)
  · exact Or.inl (congrArg _ (List.filterMap_congr hsame))
  · simp only [not_forall] at hsame
    obtain ⟨changed, hm, hne⟩ := hsame
    obtain ⟨w, hw, rfl, hnew, c, hcell, hlt⟩ := (hlane changed hm key).resolve_left hne
    refine Or.inr ⟨w, hw, rfl, ?_, ?_⟩
    · have hmem : w.version ∈ m.lanes.filterMap fun lane =>
          lookup w.key (lane.head :: f'.cells lane.rest) :=
        List.mem_filterMap.mpr ⟨changed, hm, hnew⟩
      rw [Version.newest?_eq_some (List.ne_nil_of_mem hmem), Version.newest_eq_of_newer hmem]
      intro u hu
      obtain ⟨lane, hl, hu⟩ := List.mem_filterMap.mp hu
      rcases hlane lane hl w.key with hkept | ⟨w', hw', -, hnew', -⟩
      · exact Or.inr (h.isNews_lane hf hnews hl w hw u (hkept.symm.trans hu))
      · rw [hu, Option.some.injEq] at hnew'
        exact Or.inl (hnew'.trans (congrArg _ (Option.mem_unique hw' hw)))
    · obtain ⟨d, hd, hk⟩ := h.exists_cell hf hm hcell
      exact ⟨d, hd, hk ▸ hlt⟩

/-- A merge of feeds that go on for others goes on for theirs. -/
theorem carries_toFeed (hf : f.Ascends follows) (hf' : f'.Ascends follows')
    (hc : f.Carries f' written follows follows') :
    (toFeed f).Carries (toFeed f') written (Ahead follows) (Ahead follows') := by
  rintro head m ⟨h, hlt⟩
  obtain ⟨h', hgrows⟩ := h.grows hf hf' hc
  refine ⟨⟨h', hlt⟩, fun hnews => ?_⟩
  have hasc := ((ascends_toFeed hf).toList ⟨h, hlt⟩).2
  exact (hgrows (hnews.of_cons hasc)).cons head

end Merge

end TableStore

import TableStore.Merge.Basic

/-! Merges through the lists that their feeds yield. Where the states of one feed can be seen as
states of another that yields the same items, the two feeds read the same list, and so do the
merges over them. Every feed can be seen as the list of what it yields, so a merge of feeds reads
what the merge of their lists does. -/

namespace TableStore

variable {σ τ : Type}

namespace Feed

/-- Under `view`, `g` yields from each state what `f` does. -/
def SeenAs (f : Feed σ) (g : Feed τ) (view : σ → τ) : Prop :=
  ∀ s, g.pull (view s) = (f.pull s).map fun step => (step.1, view step.2)

theorem toList_of_pull_none {f : Feed σ} {s : σ} (h : f.pull s = none) : f.toList s = [] := by
  rw [toList]
  split
  · rfl
  · rename_i hs
    simp [h] at hs

theorem toList_of_pull_some {f : Feed σ} {s next : σ} {item : Item}
    (h : f.pull s = some (item, next)) : f.toList s = item :: f.toList next := by
  rw [toList]
  split
  · rename_i hs
    simp [h] at hs
  · rename_i hs
    rw [h, Option.some.injEq, Prod.mk.injEq] at hs
    rw [hs.1, hs.2]

theorem pull_of_toList_eq_nil {f : Feed σ} {s : σ} (h : f.toList s = []) : f.pull s = none := by
  cases hp : f.pull s with
  | none => rfl
  | some step =>
    rw [toList_of_pull_some hp] at h
    simp at h

theorem pull_of_toList_eq_cons {f : Feed σ} {s : σ} {item : Item} {rest : List Item}
    (h : f.toList s = item :: rest) :
    ∃ next, f.pull s = some (item, next) ∧ f.toList next = rest := by
  cases hp : f.pull s with
  | none =>
    rw [toList_of_pull_none hp] at h
    simp at h
  | some step =>
    rw [toList_of_pull_some hp, List.cons.injEq] at h
    obtain ⟨rfl, h⟩ := h
    exact ⟨step.2, rfl, h⟩

theorem SeenAs.toList_eq {f : Feed σ} {g : Feed τ} {view : σ → τ} (h : f.SeenAs g view) (s : σ) :
    g.toList (view s) = f.toList s := by
  fun_induction f.toList s with
  | case1 s hs => exact toList_of_pull_none (by rw [h s, hs]; rfl)
  | case2 s item next hs ih =>
    rw [← ih]
    exact toList_of_pull_some (by rw [h s, hs]; rfl)

theorem seenAs_ofList (f : Feed σ) : f.SeenAs ofList f.toList := by
  intro s
  cases hs : f.pull s with
  | none =>
    rw [toList_of_pull_none hs]
    rfl
  | some step =>
    rw [toList_of_pull_some hs]
    rfl

end Feed

/-! ### Lanes seen otherwise -/

def Lane.map (view : σ → τ) (lane : Lane σ) : Lane τ := ⟨lane.head, view lane.rest⟩

namespace Merge

def map (view : σ → τ) (m : Merge σ) : Merge τ := ⟨m.lanes.map (Lane.map view), m.faults⟩

theorem foremost_map (view : σ → τ) (lanes : List (Lane σ)) :
    foremost (lanes.map (Lane.map view)) = (foremost lanes).map fun found =>
      (found.1.map (Lane.map view), Lane.map view found.2.1, found.2.2.map (Lane.map view)) := by
  induction lanes with
  | nil => rfl
  | cons lane lanes ih =>
    rw [List.map_cons, foremost, ih, foremost]
    cases foremost lanes with
    | none => rfl
    | some found =>
      obtain ⟨before, best, behind⟩ := found
      simp only [Option.map_some]
      by_cases ho : lane.head.order best.head = .lt
      · rw [if_pos ho, if_pos (by exact ho)]
        rfl
      · rw [if_neg ho, if_neg (by exact ho)]
        rfl

theorem foremost_map_of_none (view : σ → τ) {lanes : List (Lane σ)} (h : foremost lanes = none) :
    foremost (lanes.map (Lane.map view)) = none := by
  rw [foremost_map, h]
  rfl

theorem foremost_map_of_some (view : σ → τ) {lanes before behind : List (Lane σ)} {lane : Lane σ}
    (h : foremost lanes = some (before, lane, behind)) :
    foremost (lanes.map (Lane.map view)) =
      some (before.map (Lane.map view), lane.map view, behind.map (Lane.map view)) := by
  rw [foremost_map, h]
  rfl

/-! ### Lanes that a step moves -/

theorem skip_of_none {f : Feed σ} {key : Bytes} {m : Merge σ} (h : foremost m.lanes = none) :
    skip f key m = m := by
  rw [skip]
  split
  · rfl
  · rename_i hs
    simp [h] at hs

theorem skip_of_some {f : Feed σ} {key : Bytes} {m : Merge σ} {before behind : List (Lane σ)}
    {lane : Lane σ} (h : foremost m.lanes = some (before, lane, behind)) :
    skip f key m = if lane.head.key = key then
      skip f key (place f before behind lane.rest m.faults) else m := by
  conv => lhs; rw [skip]
  split
  · rename_i hs
    simp [h] at hs
  · rename_i hs
    rw [h, Option.some.injEq, Prod.mk.injEq, Prod.mk.injEq] at hs
    obtain ⟨rfl, rfl, rfl⟩ := hs
    rfl

theorem mem_lanes_place {f : Feed σ} {before behind : List (Lane σ)} {lane : Lane σ}
    (h : lane ∈ before ++ behind) (rest : σ) (faults : List Fault) :
    lane ∈ (place f before behind rest faults).lanes := by
  rw [List.mem_append] at h
  unfold place
  split
  · exact List.mem_append.mpr h
  · exact List.mem_append.mpr (h.imp id (List.mem_cons_of_mem _))
  · exact List.mem_append.mpr h

/-- The merge after a step that takes the top lane's cell, its item not yet settled. -/
def passed (f : Feed σ) (before behind : List (Lane σ)) (top : Lane σ) : Merge σ :=
  skip f top.head.key (place f before behind top.rest [])

/-- A step that has taken a cell yields it, or the first fault that it met. -/
theorem settle_cases {cell : Cell} {m next : Merge σ} {item : Item}
    (h : settle cell m = (item, next)) :
    item = .ok cell ∧ next = m ∧ m.faults = [] ∨
      ∃ fault, item = .error fault ∧ m.faults = fault :: next.faults ∧ next.lanes = m.lanes := by
  unfold settle at h
  split at h
  · rename_i hf
    rw [Prod.mk.injEq] at h
    exact Or.inl ⟨h.1.symm, h.2.symm, hf⟩
  · rename_i fault faults hf
    rw [Prod.mk.injEq] at h
    obtain ⟨rfl, rfl⟩ := h
    exact Or.inr ⟨fault, rfl, hf, rfl⟩

/-- A step yields a fault met before, or it takes the foremost cell. -/
theorem pull_cases {f : Feed σ} {m next : Merge σ} {item : Item}
    (h : m.pull f = some (item, next)) :
    (∃ fault, item = .error fault ∧ m.faults = fault :: next.faults ∧ next.lanes = m.lanes) ∨
    ∃ before top behind, m.faults = [] ∧ foremost m.lanes = some (before, top, behind) ∧
      settle top.head (passed f before behind top) = (item, next) := by
  unfold pull at h
  split at h
  · rename_i fault faults hf
    rw [Option.some.injEq, Prod.mk.injEq] at h
    obtain ⟨rfl, rfl⟩ := h
    exact Or.inl ⟨fault, rfl, hf, rfl⟩
  · rename_i hf
    split at h
    · simp at h
    · rename_i before top behind ht
      exact Or.inr ⟨before, top, behind, hf, ht, Option.some.inj h⟩

/-- A step that yields a cell has taken it from the foremost lane and met no fault. -/
theorem pull_eq_some_ok {f : Feed σ} {m next : Merge σ} {out : Cell}
    (h : m.pull f = some (.ok out, next)) :
    ∃ before top behind, m.faults = [] ∧ foremost m.lanes = some (before, top, behind) ∧
      out = top.head ∧ next = passed f before behind top ∧ next.faults = [] := by
  rcases pull_cases h with ⟨_, he, -⟩ | ⟨before, top, behind, hn, hf, hs⟩
  · simp at he
  · rcases settle_cases hs with ⟨he, rfl, hnone⟩ | ⟨_, he, -⟩
    · exact ⟨before, top, behind, hn, hf, Except.ok.inj he, rfl, hnone⟩
    · simp at he

/-- What opening one of the sources brings about, and opening the others keeps, holds at the start. -/
theorem start_keeps {f : Feed σ} {p : Merge σ → Prop} {sources : List σ} {source : σ}
    (h : source ∈ sources) (hput : ∀ m : Merge σ, p (place f m.lanes [] source m.faults))
    (hkeep : ∀ (m : Merge σ) (rest : σ), p m → p (place f m.lanes [] rest m.faults)) :
    p (start f sources) := by
  have hfold : ∀ (sources : List σ) (m : Merge σ), p m →
      p (sources.foldl (fun m rest => place f m.lanes [] rest m.faults) m) := by
    intro sources
    induction sources with
    | nil => exact fun m hm => hm
    | cons other sources ih => exact fun m hm => ih _ (hkeep m other hm)
  obtain ⟨front, back, rfl⟩ := List.mem_iff_append.mp h
  rw [start, List.foldl_append, List.foldl_cons]
  exact hfold back _ (hput _)

variable {f : Feed σ} {g : Feed τ} {view : σ → τ}

theorem place_map (h : f.SeenAs g view) (before behind : List (Lane σ)) (rest : σ)
    (faults : List Fault) :
    place g (before.map (Lane.map view)) (behind.map (Lane.map view)) (view rest) faults =
      (place f before behind rest faults).map view := by
  unfold place
  rw [h rest]
  cases f.pull rest with
  | none => simp [map]
  | some step =>
    obtain ⟨item, next⟩ := step
    cases item with
    | ok cell => simp [map, Lane.map]
    | error fault => simp [map]

theorem skip_map (h : f.SeenAs g view) (key : Bytes) (m : Merge σ) :
    skip g key (m.map view) = (skip f key m).map view := by
  fun_induction skip f key m with
  | case1 m hm => rw [skip_of_none (m := m.map view) (foremost_map_of_none view hm)]
  | case2 m before lane behind hm hk ih =>
    rw [skip_of_some (m := m.map view) (foremost_map_of_some view hm), if_pos (by exact hk), ← ih,
      ← place_map h]
    rfl
  | case3 m before lane behind hm hk =>
    rw [skip_of_some (m := m.map view) (foremost_map_of_some view hm), if_neg (by exact hk)]

theorem settle_map (view : σ → τ) (cell : Cell) (m : Merge σ) :
    settle cell (m.map view) = ((settle cell m).1, (settle cell m).2.map view) := by
  obtain ⟨lanes, faults⟩ := m
  cases faults <;> rfl

theorem seenAs_toFeed (h : f.SeenAs g view) : (toFeed f).SeenAs (toFeed g) (map view) := by
  intro m
  show pull g (m.map view) = (pull f m).map _
  unfold pull
  simp only [map]
  cases m.faults with
  | cons fault faults => rfl
  | nil =>
    simp only [foremost_map]
    cases foremost m.lanes with
    | none => rfl
    | some found =>
      obtain ⟨before, top, behind⟩ := found
      simp only [Option.map_some]
      rw [Lane.map, place_map h, skip_map h, settle_map]
      rfl

theorem start_map (h : f.SeenAs g view) (sources : List σ) :
    start g (sources.map view) = (start f sources).map view := by
  have hfold : ∀ m : Merge σ,
      (sources.map view).foldl (fun m rest => place g m.lanes [] rest m.faults) (m.map view) =
        (sources.foldl (fun m rest => place f m.lanes [] rest m.faults) m).map view := by
    induction sources with
    | nil => intro m; rfl
    | cons source sources ih =>
      intro m
      rw [List.map_cons, List.foldl_cons, List.foldl_cons, ← ih]
      congr 1
      exact place_map h m.lanes [] source m.faults
  exact hfold ⟨[], []⟩

/-- Merged feeds read what the merge of the lists they yield does. -/
theorem toList_start (f : Feed σ) (sources : List σ) :
    (toFeed f).toList (start f sources) = mergeLists (sources.map f.toList) := by
  have h := f.seenAs_ofList
  rw [mergeLists, start_map h, (seenAs_toFeed h).toList_eq]

end Merge

end TableStore

import TableStore.Merge.Feed

/-! Merging feeds that ascend by key into one that holds, per key, the newest version. Each
feed with cells left is a lane that shows its next cell. The foremost lane is the one with the
least key, the newest version under it, and the later lane on a tie; a step takes its cell and
moves every lane past that key. A fault met on the way ends its lane and is yielded before any
further cell, and the cell of the step that met it is not yielded. -/

namespace TableStore

/-- A feed with its next cell. -/
structure Lane (σ : Type) where
  head : Cell
  rest : σ

/-- The lanes in the order of their feeds, and the faults not yet yielded. -/
structure Merge (σ : Type) where
  lanes : List (Lane σ)
  faults : List Fault

namespace Merge

variable {σ : Type}

/-! ### Lanes -/

/-- The foremost lane between the lanes before it and those behind it. -/
def foremost : List (Lane σ) → Option (List (Lane σ) × Lane σ × List (Lane σ))
  | [] => none
  | lane :: lanes =>
    match foremost lanes with
    | none => some ([], lane, lanes)
    | some (before, best, behind) =>
      if lane.head.order best.head = .lt then some ([], lane, lanes)
      else some (lane :: before, best, behind)

theorem eq_of_foremost {lanes before behind : List (Lane σ)} {best : Lane σ}
    (h : foremost lanes = some (before, best, behind)) : lanes = before ++ best :: behind := by
  induction lanes generalizing before with
  | nil => simp [foremost] at h
  | cons lane lanes ih =>
    unfold foremost at h
    split at h
    · simp only [Option.some.injEq, Prod.mk.injEq] at h
      obtain ⟨rfl, rfl, rfl⟩ := h
      rfl
    · rename_i before' best' behind' hf
      split at h
      · simp only [Option.some.injEq, Prod.mk.injEq] at h
        obtain ⟨rfl, rfl, rfl⟩ := h
        rfl
      · simp only [Option.some.injEq, Prod.mk.injEq] at h
        obtain ⟨rfl, rfl, rfl⟩ := h
        rw [ih hf]
        rfl

/-- A bound on the items of some lanes. -/
def laneTotal (feed : Feed σ) : List (Lane σ) → Nat
  | [] => 0
  | lane :: lanes => feed.remaining lane.rest + 1 + laneTotal feed lanes

theorem laneTotal_append (feed : Feed σ) (a b : List (Lane σ)) :
    laneTotal feed (a ++ b) = laneTotal feed a + laneTotal feed b := by
  induction a with
  | nil => simp [laneTotal]
  | cons lane a ih =>
    simp only [List.cons_append, laneTotal, ih]
    omega

/-- A bound on the items still to come. -/
def remaining (feed : Feed σ) (m : Merge σ) : Nat := laneTotal feed m.lanes + m.faults.length

/-! ### Steps -/

/-- Puts a feed's next cell between two groups of lanes, or its fault behind the faults. -/
def place (feed : Feed σ) (before behind : List (Lane σ)) (rest : σ) (faults : List Fault) :
    Merge σ :=
  match feed.pull rest with
  | none => ⟨before ++ behind, faults⟩
  | some (.ok cell, rest) => ⟨before ++ ⟨cell, rest⟩ :: behind, faults⟩
  | some (.error fault, _) => ⟨before ++ behind, faults ++ [fault]⟩

theorem remaining_place (feed : Feed σ) (before behind : List (Lane σ)) (rest : σ)
    (faults : List Fault) :
    (place feed before behind rest faults).remaining feed ≤
      laneTotal feed before + feed.remaining rest + laneTotal feed behind + faults.length := by
  unfold place
  split
  · simp only [remaining, laneTotal_append]
    omega
  · rename_i h
    have := feed.remaining_lt h
    simp only [remaining, laneTotal_append, laneTotal]
    omega
  · rename_i h
    have := feed.remaining_lt h
    simp only [remaining, laneTotal_append, List.length_append, List.length_singleton]
    omega

/-- Moves the lanes that are foremost with `key` past it. -/
def skip (feed : Feed σ) (key : Bytes) (m : Merge σ) : Merge σ :=
  match _h : foremost m.lanes with
  | none => m
  | some (before, lane, behind) =>
    if lane.head.key = key then skip feed key (place feed before behind lane.rest m.faults)
    else m
termination_by m.remaining feed
decreasing_by
  have := remaining_place feed before behind lane.rest m.faults
  simp only [remaining, eq_of_foremost _h, laneTotal_append, laneTotal] at this ⊢
  omega

theorem remaining_skip (feed : Feed σ) (key : Bytes) (m : Merge σ) :
    (skip feed key m).remaining feed ≤ m.remaining feed := by
  fun_induction skip feed key m with
  | case1 => exact Nat.le_refl _
  | case2 m before lane behind h hk ih =>
    refine Nat.le_trans ih ?_
    have := remaining_place feed before behind lane.rest m.faults
    simp only [remaining, eq_of_foremost h, laneTotal_append, laneTotal] at this ⊢
    omega
  | case3 => exact Nat.le_refl _

/-- Opens the feeds in order. -/
def start (feed : Feed σ) (sources : List σ) : Merge σ :=
  sources.foldl (fun m rest => place feed m.lanes [] rest m.faults) ⟨[], []⟩

/-- The item of a step that took `cell`: the first fault if there is one, else the cell. -/
def settle (cell : Cell) (m : Merge σ) : Item × Merge σ :=
  match m.faults with
  | [] => (.ok cell, m)
  | fault :: faults => (.error fault, ⟨m.lanes, faults⟩)

theorem remaining_settle (feed : Feed σ) (cell : Cell) (m : Merge σ) :
    (settle cell m).2.remaining feed ≤ m.remaining feed := by
  unfold settle
  split
  · exact Nat.le_refl _
  · rename_i h
    simp [remaining, h]

/-- The next item and the merge after it. -/
def pull (feed : Feed σ) (m : Merge σ) : Option (Item × Merge σ) :=
  match m.faults with
  | fault :: faults => some (.error fault, ⟨m.lanes, faults⟩)
  | [] =>
    match foremost m.lanes with
    | none => none
    | some (before, top, behind) =>
      some (settle top.head (skip feed top.head.key (place feed before behind top.rest [])))

theorem remaining_pull (feed : Feed σ) {m next : Merge σ} {item : Item}
    (h : m.pull feed = some (item, next)) : next.remaining feed < m.remaining feed := by
  unfold pull at h
  split at h
  · rename_i fault faults hf
    simp only [Option.some.injEq, Prod.mk.injEq] at h
    simp only [remaining, hf, ← h.2, List.length_cons]
    omega
  · rename_i hf
    split at h
    · simp at h
    · rename_i before top behind ht
      have hs := remaining_skip feed top.head.key (place feed before behind top.rest [])
      have hp := remaining_place feed before behind top.rest []
      have hn := remaining_settle feed top.head
        (skip feed top.head.key (place feed before behind top.rest []))
      rw [Option.some.inj h] at hn
      simp only [remaining, hf, eq_of_foremost ht, laneTotal_append, laneTotal,
        List.length_nil] at hs hp hn ⊢
      omega

/-- A merge is itself a feed. -/
def toFeed (feed : Feed σ) : Feed (Merge σ) where
  pull := pull feed
  remaining := remaining feed
  remaining_lt := remaining_pull feed

end Merge

/-- The merge of lists of items, read to its end. -/
def mergeLists (sources : List (List Item)) : List Item :=
  (Merge.toFeed Feed.ofList).toList (Merge.start Feed.ofList sources)

end TableStore

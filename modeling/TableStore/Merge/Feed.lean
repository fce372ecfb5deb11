import TableStore.Fault

/-! Feeds: sources of cells that are read one item at a time. An item is a cell or a fault,
and a bound on the items still to come strictly falls with each, so a feed can be read to its
end. A list of items is the plainest feed. -/

namespace TableStore

/-- What a source yields: a cell, or the fault that stopped it. -/
abbrev Item := Except Fault Cell

/-- A way to read sources in states of type `σ`. -/
structure Feed (σ : Type) where
  /-- The next item and the state after it. -/
  pull : σ → Option (Item × σ)
  /-- A bound on the items still to come. -/
  remaining : σ → Nat
  remaining_lt : ∀ {s i s'}, pull s = some (i, s') → remaining s' < remaining s

namespace Feed

variable {σ : Type}

/-- All items still to come. -/
def toList (feed : Feed σ) (s : σ) : List Item :=
  match _h : feed.pull s with
  | none => []
  | some (item, next) => item :: feed.toList next
termination_by feed.remaining s
decreasing_by exact feed.remaining_lt _h

/-- A list, read from its head. -/
def ofList : Feed (List Item) where
  pull
    | [] => none
    | item :: rest => some (item, rest)
  remaining := List.length
  remaining_lt := by
    intro s i s' h
    cases s with
    | nil => simp at h
    | cons a rest =>
      simp only [Option.some.injEq, Prod.mk.injEq] at h
      simp [← h.2]

theorem toList_ofList (items : List Item) : ofList.toList items = items := by
  induction items with
  | nil =>
    rw [toList]
    rfl
  | cons item rest ih =>
    rw [toList]
    show item :: ofList.toList rest = item :: rest
    rw [ih]

end Feed

end TableStore

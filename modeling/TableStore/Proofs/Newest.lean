import TableStore.Proofs.Sorted
import TableStore.Version

/-! The choice of the newest version. The chosen version is one of the list, and no version of the
list is newer; versions that stand in front and stand again behind change nothing. In cells that
ascend by key, looking a key up finds the one cell that has it. -/

namespace TableStore

namespace Version

/-! ### Older versions -/

theorem not_older_self (v : Version) : ¬ v.Older v := by
  unfold Older
  cases v.stamp? with
  | none => simp
  | some s => simp

theorem Older.asymm {a b : Version} (h : a.Older b) : ¬ b.Older a :=
  fun hb => not_older_self a (h.trans hb)

theorem absent_older_of_isAbsent_eq_false {v : Version} (h : v.isAbsent = false) :
    absent.Older v := by
  cases v with
  | absent => simp [isAbsent] at h
  | present | tombstone => simp [Older, stamp?]

theorem not_older_absent (v : Version) : ¬ v.Older absent := by
  cases v <;> simp [Older, stamp?]

theorem older_of_not_older {a b c : Version} (hab : ¬ b.Older a) (hbc : b.Older c) :
    a.Older c := by
  unfold Older at *
  revert hab hbc
  cases a.stamp? <;> cases b.stamp? <;> cases c.stamp? <;> simp [Int64.not_lt]
  exact fun h k => Int64.lt_of_le_of_lt h k

theorem stamp?_eq_of_not_older {a b : Version} (hab : ¬ a.Older b) (hba : ¬ b.Older a) :
    a.stamp? = b.stamp? := by
  unfold Older at *
  revert hab hba
  cases a.stamp? <;> cases b.stamp? <;> simp [Int64.not_lt]
  exact fun h k => Int64.le_antisymm k h

theorem Older.stamp?_ne {a b : Version} (h : a.Older b) : a.stamp? ≠ b.stamp? := by
  intro he
  unfold Older at h
  rw [he] at h
  exact not_older_self b h

theorem exists_stamp?_of_data? {v : Version} {data : Bytes} (h : v.data? = some data) :
    ∃ stamp, v.stamp? = some stamp := by
  cases v with
  | present stamp own => exact ⟨stamp, rfl⟩
  | tombstone | absent => simp [data?] at h

/-! ### The later of two -/

theorem later_of_newer {a b : Version} (h : b.Older a) : later a b = a := if_pos h

theorem later_of_not_newer {a b : Version} (h : ¬ b.Older a) : later a b = b := if_neg h

/-- Two versions are told apart by their order only when they are of one age. -/
theorem later_comm_or (a b : Version) : later a b = later b a ∨
    later a b = b ∧ later b a = a ∧ b.stamp? = a.stamp? := by
  by_cases hba : b.Older a
  · exact Or.inl (by rw [later_of_newer hba, later_of_not_newer hba.asymm])
  · by_cases hab : a.Older b
    · exact Or.inl (by rw [later_of_newer hab, later_of_not_newer hba])
    · exact Or.inr ⟨later_of_not_newer hba, later_of_not_newer hab, stamp?_eq_of_not_older hba hab⟩

theorem later_of_same_age {a b : Version} (h : a.stamp? = b.stamp?) : later a b = b := by
  apply later_of_not_newer
  unfold Older
  rw [h]
  cases b.stamp? <;> simp

theorem later_eq_or (a b : Version) : later a b = a ∨ later a b = b := by
  unfold later
  split
  · exact Or.inl rfl
  · exact Or.inr rfl

theorem not_later_older_left (a b : Version) : ¬ (later a b).Older a := by
  unfold later
  split
  · exact not_older_self a
  · assumption

theorem not_later_older_right (a b : Version) : ¬ (later a b).Older b := by
  unfold later
  split
  · rename_i h
    exact h.asymm
  · exact not_older_self b

/-! ### The newest of a list -/

@[simp] theorem newest_nil : newest [] = absent := rfl

@[simp] theorem newest_cons (v : Version) (l : List Version) :
    newest (v :: l) = later v (newest l) := by
  rw [newest, List.foldl_cons, later_absent_left, foldl_later]

theorem newest_mem (l : List Version) : newest l = absent ∨ newest l ∈ l := by
  induction l with
  | nil => exact Or.inl rfl
  | cons v l ih =>
    rw [newest_cons]
    rcases later_eq_or v (newest l) with h | h
    · rw [h]
      exact Or.inr List.mem_cons_self
    · rw [h]
      exact ih.imp id (List.mem_cons_of_mem v)

theorem not_newest_older {v : Version} {l : List Version} (h : v ∈ l) : ¬ (newest l).Older v := by
  induction l with
  | nil => simp at h
  | cons w l ih =>
    rw [newest_cons]
    rcases List.mem_cons.mp h with rfl | h
    · exact not_later_older_left _ _
    · exact not_older_trans (not_later_older_right _ _) (ih h)

theorem newest_mem_of_stamp? {l : List Version} {stamp : Stamp}
    (h : (newest l).stamp? = some stamp) : newest l ∈ l := by
  refine (newest_mem l).resolve_left fun ha => ?_
  simp [ha, stamp?] at h

theorem newest_mem_of_mem {v : Version} {l : List Version} (h : v ∈ l) : newest l ∈ l := by
  rcases newest_mem l with ha | hm
  · have hnot := not_newest_older h
    rw [ha] at hnot ⊢
    cases v with
    | absent => exact h
    | present | tombstone => exact absurd (absent_older_of_isAbsent_eq_false rfl) hnot
  · exact hm

/-- The version that stands is newer than those behind it and not older than those before. -/
theorem newest_eq_of_bounds {front back : List Version} {v : Version}
    (hf : ∀ u ∈ front, ¬ v.Older u) (hb : ∀ u ∈ back, u.Older v) :
    newest (front ++ v :: back) = v := by
  have hback : later v (newest back) = v := by
    rcases newest_mem back with ha | hm
    · rw [ha, later_absent_right]
    · exact later_of_newer (hb _ hm)
  rw [newest_append, newest_cons, hback, later, if_neg]
  rcases newest_mem front with ha | hm
  · rw [ha]
    exact not_older_absent v
  · exact hf _ hm

/-- A version of a list that is newer than all others of it stands. -/
theorem newest_eq_of_newer {l : List Version} {v : Version} (hv : v ∈ l)
    (h : ∀ u ∈ l, u = v ∨ u.Older v) : newest l = v :=
  (h _ (newest_mem_of_mem hv)).resolve_right (not_newest_older hv)

/-- Some of a list, put before all of it, change nothing. -/
theorem newest_append_of_subset {front all : List Version} (h : ∀ v ∈ front, v ∈ all) :
    newest (front ++ all) = newest all := by
  rw [newest_append, later, if_neg]
  rcases newest_mem front with ha | hm
  · rw [ha]
    exact not_older_absent _
  · exact not_newest_older (h _ hm)

/-- A version that stands behind changes nothing when it stands again before. -/
theorem newest_cons_of_mem {l : List Version} {v : Version} (hm : v ∈ l) :
    newest (v :: l) = newest l := by
  have hfront : ∀ u ∈ [v], u ∈ l := by simpa using hm
  exact newest_append_of_subset hfront

theorem newest_insert_of_mem_back {front back : List Version} {v : Version} (hm : v ∈ back) :
    newest (front ++ v :: back) = newest (front ++ back) := by
  rw [newest_append, newest_cons_of_mem hm, ← newest_append]

/-- A version that stands in front changes nothing when it stands again behind, unless another one
of its age does so in front. -/
theorem newest_insert_of_mem {front back : List Version} {v : Version} (hm : v ∈ front)
    (hage : ∀ u ∈ front, u.stamp? = v.stamp? → u = v) :
    newest (front ++ v :: back) = newest (front ++ back) := by
  have hfront : later (newest front) v = newest front := by
    by_cases ho : v.Older (newest front)
    · exact later_of_newer ho
    · have hsame := hage _ (newest_mem_of_mem hm)
        (stamp?_eq_of_not_older (not_newest_older hm) ho)
      rw [hsame, later, if_neg (not_older_self v)]
  rw [newest_append, newest_cons, ← later_assoc, hfront, ← newest_append]

theorem mem_held_of_mem_shown {α : Type} {held shown : α → Option Version} {p : α → Prop}
    {l : List α} (h : ∀ a ∈ l, shown a = held a ∨ shown a = none ∧ p a) {v : Version}
    (hv : v ∈ l.filterMap shown) : v ∈ l.filterMap held := by
  obtain ⟨a, ha, hs⟩ := List.mem_filterMap.mp hv
  rcases h a ha with he | ⟨hnone, -⟩
  · exact List.mem_filterMap.mpr ⟨a, ha, he ▸ hs⟩
  · simp [hnone] at hs

/-- What elements show is not newer than the newest version that they hold. -/
theorem not_newest_older_shown {α : Type} {held shown : α → Option Version} {p : α → Prop}
    {l : List α} (h : ∀ a ∈ l, shown a = held a ∨ shown a = none ∧ p a) :
    ¬ (newest (l.filterMap held)).Older (newest (l.filterMap shown)) := by
  rcases newest_mem (l.filterMap shown) with ha | hm
  · rw [ha]
    exact not_older_absent _
  · exact not_newest_older (mem_held_of_mem_shown h hm)

/-- Of elements that show all they hold, or nothing of it, the newest version held is the newest
shown, or an element that shows nothing holds it. -/
theorem newest_filterMap_cases {α : Type} {held shown : α → Option Version} {p : α → Prop}
    {l : List α} (h : ∀ a ∈ l, shown a = held a ∨ shown a = none ∧ p a) :
    newest (l.filterMap held) = newest (l.filterMap shown) ∨
      ∃ a ∈ l, p a ∧ held a = some (newest (l.filterMap held)) := by
  induction l with
  | nil => exact Or.inl rfl
  | cons a l ih =>
    have htail := fun b hb => h b (List.mem_cons_of_mem a hb)
    have hmore : (∃ b ∈ l, p b ∧ held b = some (newest (l.filterMap held))) →
        ∃ b ∈ a :: l, p b ∧ held b = some (newest (l.filterMap held)) :=
      fun ⟨b, hb, hp⟩ => ⟨b, List.mem_cons_of_mem a hb, hp⟩
    cases hv : held a with
    | none =>
      have hshown : shown a = none := (h a List.mem_cons_self).elim (·.trans hv) (·.1)
      rw [List.filterMap_cons_none hv, List.filterMap_cons_none hshown]
      exact (ih htail).imp id hmore
    | some v =>
      rw [List.filterMap_cons_some hv, newest_cons]
      by_cases ho : (newest (l.filterMap held)).Older v
      · rw [later_of_newer ho]
        rcases h a List.mem_cons_self with hs | ⟨-, hp⟩
        · have hrest : (newest (l.filterMap shown)).Older v :=
            older_of_not_older (not_newest_older_shown htail) ho
          rw [List.filterMap_cons_some (hs.trans hv), newest_cons, later_of_newer hrest]
          exact Or.inl rfl
        · exact Or.inr ⟨a, List.mem_cons_self, hp, hv⟩
      · rw [later, if_neg ho]
        refine (ih htail).imp (fun he => ?_) hmore
        rcases h a List.mem_cons_self with hs | ⟨hs, -⟩
        · rw [List.filterMap_cons_some (hs.trans hv), newest_cons, ← he, later, if_neg ho]
        · rw [List.filterMap_cons_none hs, he]

end Version

/-! ### Looking keys up -/

@[simp] theorem lookup_nil (key : Bytes) : lookup key [] = none := rfl

theorem mem_of_lookup {key : Bytes} {cells : List Cell} {v : Version}
    (h : lookup key cells = some v) : ⟨key, v⟩ ∈ cells := by
  unfold lookup at h
  obtain ⟨c, hc, rfl⟩ := Option.map_eq_some_iff.mp h
  have hk : c.key = key := by simpa using List.find?_some hc
  exact hk ▸ List.mem_of_find?_eq_some hc

theorem lookup_eq_none_iff {key : Bytes} {cells : List Cell} :
    lookup key cells = none ↔ ∀ c ∈ cells, c.key ≠ key := by
  simp [lookup]

theorem lookup_ne_none_iff {key : Bytes} {cells : List Cell} :
    lookup key cells ≠ none ↔ ∃ cell ∈ cells, cell.key = key := by
  simp [lookup]

/-- Cells picked by their keys. -/
theorem lookup_filter (p : Bytes → Prop) [DecidablePred p] (key : Bytes) (cells : List Cell) :
    lookup key (cells.filter fun c => p c.key) = if p key then lookup key cells else none := by
  induction cells with
  | nil => simp
  | cons cell rest ih =>
    rw [List.filter_cons]
    by_cases hc : p cell.key
    · rw [if_pos (by simpa using hc), lookup_cons, lookup_cons, ih]
      by_cases hk : cell.key = key
      · rw [if_pos hk, if_pos hk, if_pos (hk ▸ hc)]
      · rw [if_neg hk, if_neg hk]
    · rw [if_neg (by simpa using hc), ih, lookup_cons]
      by_cases hk : cell.key = key
      · rw [← hk, if_neg hc, if_neg hc]
      · rw [if_neg hk]

theorem Ascending.tail {c : Cell} {cells : List Cell} (h : Ascending (c :: cells)) :
    Ascending cells := List.Pairwise.of_cons h

theorem Ascending.head_lt {c d : Cell} {cells : List Cell} (h : Ascending (c :: cells))
    (hd : d ∈ cells) : c.key < d.key := List.rel_of_pairwise_cons h hd

theorem Ascending.cons {c d : Cell} {cells : List Cell} (h : Ascending (d :: cells))
    (hlt : c.key < d.key) : Ascending (c :: d :: cells) := by
  refine List.pairwise_cons.mpr ⟨fun e he => ?_, h⟩
  rcases List.mem_cons.mp he with rfl | he
  · exact hlt
  · exact List.lt_trans hlt (h.head_lt he)

theorem Ascending.find?_of_mem {cells : List Cell} (h : Ascending cells) {c : Cell}
    (hc : c ∈ cells) : cells.find? (fun d => d.key == c.key) = some c := by
  induction cells with
  | nil => simp at hc
  | cons d cells ih =>
    rcases List.mem_cons.mp hc with rfl | hm
    · exact List.find?_cons_of_pos (beq_self_eq_true _)
    · rw [List.find?_cons_of_neg, ih h.tail hm]
      intro he
      exact List.lt_irrefl _ (beq_iff_eq.mp he ▸ h.head_lt hm)

theorem Ascending.lookup_of_mem {cells : List Cell} (h : Ascending cells) {c : Cell}
    (hc : c ∈ cells) : lookup c.key cells = some c.version := by
  rw [lookup, h.find?_of_mem hc]
  rfl

theorem Ascending.lookup_eq_some_iff {cells : List Cell} (h : Ascending cells) {key : Bytes}
    {v : Version} : lookup key cells = some v ↔ ⟨key, v⟩ ∈ cells :=
  ⟨mem_of_lookup, fun hm => h.lookup_of_mem hm⟩

theorem Ascending.eq_of_mem_iff {cells cells' : List Cell} (h : Ascending cells)
    (h' : Ascending cells') (hm : ∀ cell, cell ∈ cells ↔ cell ∈ cells') : cells = cells' :=
  eq_of_pairwise_of_mem_iff (fun _ _ hab hba => List.lt_irrefl _ (List.lt_trans hab hba)) h h' hm

/-- Ascending cells are known by what they hold under each key. -/
theorem Ascending.eq_of_lookup {cells cells' : List Cell} (h : Ascending cells)
    (h' : Ascending cells') (hl : ∀ key, lookup key cells = lookup key cells') :
    cells = cells' := by
  refine h.eq_of_mem_iff h' fun cell => ?_
  have hown : cell ∈ cells ↔ lookup cell.key cells = some cell.version :=
    h.lookup_eq_some_iff.symm
  rw [hown, hl, h'.lookup_eq_some_iff]

/-! ### The last write of a key -/

/-- The version of the last of the cells that has the key. -/
def lastWrite? (key : Bytes) (writes : List Cell) : Option Version := lookup key writes.reverse

@[simp] theorem lastWrite?_nil (key : Bytes) : lastWrite? key [] = none := rfl

theorem lastWrite?_concat (key : Bytes) (writes : List Cell) (cell : Cell) :
    lastWrite? key (writes ++ [cell]) =
      if cell.key = key then some cell.version else lastWrite? key writes := by
  rw [lastWrite?, List.reverse_append, List.reverse_singleton, List.singleton_append, lookup_cons]
  rfl

theorem mem_of_lastWrite? {key : Bytes} {writes : List Cell} {v : Version}
    (h : lastWrite? key writes = some v) : ⟨key, v⟩ ∈ writes := by
  simpa using mem_of_lookup h

theorem ne_of_lastWrite? {key : Bytes} {writes : List Cell} (h : lastWrite? key writes = none) :
    ∀ w ∈ writes, w.key ≠ key := by
  simpa [lastWrite?, lookup_eq_none_iff] using h

end TableStore

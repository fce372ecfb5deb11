import TableStore.Generations
import TableStore.Proofs.Sorted

/-! Values under generations through what is found under each generation. Two collections that
find the same are the same, a value under a generation past all others stands last, and what has
been erased is part of what was there. -/

namespace TableStore

/-- The greater of two generations is one of them, and neither is greater. -/
theorem max_generation_cases (a b : UInt64) :
    max a b = a ∧ b ≤ a ∨ max a b = b ∧ a ≤ b := by
  show (if a ≤ b then b else a) = a ∧ b ≤ a ∨ (if a ≤ b then b else a) = b ∧ a ≤ b
  by_cases h : a ≤ b
  · exact Or.inr ⟨if_pos h, h⟩
  · exact Or.inl ⟨if_neg h, UInt64.le_of_lt (UInt64.not_le.mp h)⟩

namespace Generations

variable {α β : Type}

theorem mem_entries_iff {g : Generations α} {generation : UInt64} {value : α} :
    (generation, value) ∈ g.entries ↔ g.find? generation = some value := by
  obtain ⟨entries, hasc⟩ := g
  unfold find?
  induction entries with
  | nil => simp
  | cons e rest ih =>
    obtain ⟨he, hrest⟩ := List.pairwise_cons.mp hasc
    rw [List.mem_cons, List.find?_cons]
    by_cases hg : e.1 = generation
    · have hnot : (generation, value) ∉ rest := by
        intro hm
        have hlt : e.1 < generation := he _ hm
        rw [hg] at hlt
        exact UInt64.lt_irrefl _ hlt
      simp only [hnot, or_false, hg, beq_self_eq_true, Option.map_some, Option.some.injEq]
      exact ⟨fun h => by rw [← h], fun h => by rw [← hg, ← h]⟩
    · have hne : (generation, value) ≠ e := fun h => hg (h ▸ rfl)
      simp only [hne, false_or, beq_eq_false_iff_ne.mpr hg]
      exact ih hrest

theorem mem_values_iff {g : Generations α} {value : α} :
    value ∈ g.values ↔ ∃ generation, g.find? generation = some value := by
  simp only [values, List.mem_map, Prod.exists, exists_eq_right, mem_entries_iff]

theorem mem_keys_iff {g : Generations α} {generation : UInt64} :
    generation ∈ g.keys ↔ ∃ value, g.find? generation = some value := by
  simp only [keys, List.mem_map, Prod.exists, exists_and_right, exists_eq_right, mem_entries_iff]

theorem find?_eq_none_iff {g : Generations α} {generation : UInt64} :
    g.find? generation = none ↔ ∀ e ∈ g.entries, e.1 ≠ generation := by
  simp [find?]

/-- Entries stand in the order of their generations. -/
theorem le_iff_of_getElem? {g : Generations α} {i j : Nat} {e e' : UInt64 × α}
    (h : g.entries[i]? = some e) (h' : g.entries[j]? = some e') : j ≤ i ↔ e'.1 ≤ e.1 := by
  obtain ⟨hi, rfl⟩ := List.getElem?_eq_some_iff.mp h
  obtain ⟨hj, rfl⟩ := List.getElem?_eq_some_iff.mp h'
  have hlt := List.pairwise_iff_getElem.mp g.ascending
  rcases Nat.lt_trichotomy j i with hji | rfl | hij
  · exact iff_of_true (Nat.le_of_lt hji) (UInt64.le_of_lt (hlt j i hj hi hji))
  · exact iff_of_true (Nat.le_refl _) UInt64.le_rfl
  · exact iff_of_false (Nat.not_le.mpr hij) (UInt64.not_le.mpr (hlt i j hi hj hij))

theorem find?_of_entries_eq_nil {g : Generations α} (h : g.entries = []) (generation : UInt64) :
    g.find? generation = none := by
  rw [find?, h]
  rfl

@[simp] theorem find?_empty (generation : UInt64) :
    (empty : Generations α).find? generation = none := rfl

theorem contains_iff {g : Generations α} {generation : UInt64} :
    g.contains generation = true ↔ ∃ value, g.find? generation = some value := by
  rw [← mem_keys_iff]
  simp [contains, keys]

theorem ext_entries {g g' : Generations α} (h : g.entries = g'.entries) : g = g' := by
  cases g
  cases g'
  cases h
  rfl

/-- Collections are known by what they find. -/
theorem ext_find? {g g' : Generations α}
    (h : ∀ generation, g.find? generation = g'.find? generation) : g = g' := by
  apply ext_entries
  have hmem : ∀ e, e ∈ g.entries ↔ e ∈ g'.entries := by
    rintro ⟨generation, value⟩
    rw [mem_entries_iff, mem_entries_iff, h]
  refine eq_of_pairwise_of_mem_iff (fun e e' hlt hgt => ?_) g.ascending g'.ascending hmem
  exact UInt64.lt_irrefl _ (UInt64.lt_trans hlt hgt)

/-! ### Inserting -/

/-- Where a fresh generation finds its place. -/
theorem entries_insert_of_fresh (g : Generations α) {generation : UInt64} (value : α)
    (h : g.find? generation = none) :
    ∃ front back, g.entries = front ++ back ∧
      (g.insert generation value).entries = front ++ (generation, value) :: back ∧
      (∀ e ∈ front, e.1 < generation) ∧ ∀ e ∈ back, generation < e.1 := by
  rw [find?_eq_none_iff] at h
  obtain ⟨entries, hasc⟩ := g
  show ∃ front back, entries = front ++ back ∧
    place generation value entries = front ++ (generation, value) :: back ∧
    (∀ e ∈ front, e.1 < generation) ∧ ∀ e ∈ back, generation < e.1
  dsimp only at h
  induction entries with
  | nil => exact ⟨[], [], rfl, rfl, by simp, by simp⟩
  | cons e rest ih =>
    obtain ⟨he, hrest⟩ := List.pairwise_cons.mp hasc
    unfold place
    by_cases hlt : generation < e.1
    · refine ⟨[], e :: rest, rfl, by rw [if_pos hlt]; rfl, by simp, fun e' hm => ?_⟩
      rcases List.mem_cons.mp hm with rfl | hm
      · exact hlt
      · exact UInt64.lt_trans hlt (he e' hm)
    · have hgt : e.1 < generation :=
        UInt64.lt_of_le_of_ne (UInt64.not_lt.mp hlt) (h e List.mem_cons_self)
      obtain ⟨front, back, rfl, hp, hf, hb⟩ :=
        ih hrest fun e' hm => h e' (List.mem_cons_of_mem _ hm)
      refine ⟨e :: front, back, rfl, ?_, fun e' hm => ?_, hb⟩
      · rw [if_neg hlt, if_pos hgt, hp]
        rfl
      · rcases List.mem_cons.mp hm with rfl | hm
        · exact hgt
        · exact hf e' hm

/-- A generation past all others is placed last. -/
theorem entries_insert_of_greatest (g : Generations α) {generation : UInt64} (value : α)
    (h : ∀ e ∈ g.entries, e.1 < generation) :
    (g.insert generation value).entries = g.entries ++ [(generation, value)] := by
  have hfresh : g.find? generation = none := by
    rw [find?_eq_none_iff]
    intro e he hg
    exact UInt64.lt_irrefl _ (hg ▸ h e he)
  obtain ⟨front, back, hs, hi, -, hb⟩ := g.entries_insert_of_fresh value hfresh
  have hnil : back = [] := by
    rw [List.eq_nil_iff_forall_not_mem]
    intro e he
    have hlt := h e (by simp [hs, he])
    exact UInt64.lt_irrefl _ (UInt64.lt_trans hlt (hb e he))
  rw [hi, hs, hnil, List.append_nil]

/-! ### Erasing -/

theorem mem_entries_erase {g : Generations α} {generation : UInt64} {e : UInt64 × α} :
    e ∈ (g.erase generation).entries ↔ e ∈ g.entries ∧ e.1 ≠ generation := by
  simp [erase]

/-- Erasing the least generation takes the first entry away. -/
theorem entries_erase_head {g : Generations α} {e : UInt64 × α} {rest : List (UInt64 × α)}
    (h : g.entries = e :: rest) : (g.erase e.1).entries = rest := by
  obtain ⟨entries, hasc⟩ := g
  dsimp only at h
  subst h
  obtain ⟨he, -⟩ := List.pairwise_cons.mp hasc
  show (e :: rest).filter (fun x => x.1 ≠ e.1) = rest
  rw [List.filter_cons_of_neg (by simp), List.filter_eq_self]
  intro x hx
  have hne : x.1 ≠ e.1 := fun heq => UInt64.lt_irrefl _ (heq ▸ he x hx)
  simpa using hne

/-! ### Mapping -/

/-- The images of the values under their generations. -/
def map (f : α → β) (g : Generations α) : Generations β :=
  ⟨g.entries.map fun e => (e.1, f e.2), List.pairwise_map.mpr g.ascending⟩

@[simp] theorem values_map (f : α → β) (g : Generations α) : (g.map f).values = g.values.map f := by
  simp [values, map]

theorem find?_map (f : α → β) (g : Generations α) (generation : UInt64) :
    (g.map f).find? generation = (g.find? generation).map f := by
  simp [find?, map, List.find?_map, Function.comp_def]

end Generations

end TableStore

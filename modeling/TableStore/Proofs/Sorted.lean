/-! Lists in a strict order. Such a list has no element twice and is known by its elements. -/

namespace TableStore

variable {α : Type} {r : α → α → Prop}

theorem nodup_of_pairwise (hirr : ∀ a, ¬ r a a) {l : List α} (h : l.Pairwise r) : l.Nodup := by
  refine List.Pairwise.imp ?_ h
  rintro a _ hr rfl
  exact hirr a hr

theorem eq_of_pairwise_of_mem_iff (hasymm : ∀ a b, r a b → ¬ r b a) {l l' : List α}
    (h : l.Pairwise r) (h' : l'.Pairwise r) (hm : ∀ a, a ∈ l ↔ a ∈ l') : l = l' := by
  have hirr : ∀ a, ¬ r a a := fun a ha => hasymm a a ha ha
  have hperm : l.Perm l' :=
    (List.perm_ext_iff_of_nodup (nodup_of_pairwise hirr h) (nodup_of_pairwise hirr h')).mpr hm
  exact hperm.eq_of_pairwise (fun a b _ _ hab hba => absurd hba (hasymm a b hab)) h h'

end TableStore

/-! Values kept under generations, in ascending order and at most one each. -/

namespace TableStore

/-- Values under strictly ascending generations. -/
structure Generations (α : Type) where
  entries : List (UInt64 × α)
  ascending : entries.Pairwise fun a b => a.1 < b.1

namespace Generations

variable {α : Type}

def empty : Generations α := ⟨[], .nil⟩

def keys (g : Generations α) : List UInt64 := g.entries.map Prod.fst

def values (g : Generations α) : List α := g.entries.map Prod.snd

def size (g : Generations α) : Nat := g.entries.length

def find? (g : Generations α) (generation : UInt64) : Option α :=
  (g.entries.find? fun e => e.1 == generation).map Prod.snd

def contains (g : Generations α) (generation : UInt64) : Bool :=
  g.entries.any fun e => e.1 == generation

/-- Puts a value in its place, or over the one under the same generation. -/
def place (generation : UInt64) (value : α) : List (UInt64 × α) → List (UInt64 × α)
  | [] => [(generation, value)]
  | e :: rest =>
    if generation < e.1 then (generation, value) :: e :: rest
    else if e.1 < generation then e :: place generation value rest
    else (generation, value) :: rest

theorem mem_place {generation : UInt64} {value : α} {l : List (UInt64 × α)} {e : UInt64 × α}
    (h : e ∈ place generation value l) : e = (generation, value) ∨ e ∈ l := by
  induction l with
  | nil => simpa [place] using h
  | cons a rest ih =>
    unfold place at h
    split at h
    · simpa using h
    · split at h
      · rcases List.mem_cons.mp h with h | h
        · exact Or.inr (h ▸ List.mem_cons_self)
        · exact (ih h).imp id (List.mem_cons_of_mem _)
      · exact (List.mem_cons.mp h).imp id (List.mem_cons_of_mem _)

theorem ascending_place {generation : UInt64} {value : α} {l : List (UInt64 × α)}
    (h : l.Pairwise fun a b => a.1 < b.1) :
    (place generation value l).Pairwise fun a b => a.1 < b.1 := by
  induction l with
  | nil => simp [place]
  | cons a rest ih =>
    obtain ⟨ha, hr⟩ := List.pairwise_cons.mp h
    unfold place
    split
    · rename_i hg
      refine List.pairwise_cons.mpr ⟨fun e he => ?_, h⟩
      rcases List.mem_cons.mp he with rfl | he
      · exact hg
      · exact UInt64.lt_trans hg (ha e he)
    · rename_i hg
      split
      · rename_i hl
        refine List.pairwise_cons.mpr ⟨fun e he => ?_, ih hr⟩
        rcases mem_place he with rfl | he
        · exact hl
        · exact ha e he
      · rename_i hl
        have heq : generation = a.1 :=
          UInt64.le_antisymm (UInt64.not_lt.mp hl) (UInt64.not_lt.mp hg)
        exact List.pairwise_cons.mpr ⟨fun e he => heq ▸ ha e he, hr⟩

def insert (g : Generations α) (generation : UInt64) (value : α) : Generations α :=
  ⟨place generation value g.entries, ascending_place g.ascending⟩

def erase (g : Generations α) (generation : UInt64) : Generations α :=
  ⟨g.entries.filter fun e => e.1 ≠ generation, g.ascending.filter _⟩

theorem find?_place (generation : UInt64) (value : α) (l : List (UInt64 × α)) (other : UInt64) :
    ((place generation value l).find? fun e => e.1 == other).map Prod.snd =
      if generation = other then some value
      else (l.find? fun e => e.1 == other).map Prod.snd := by
  induction l with
  | nil =>
    by_cases h : generation = other <;> simp [place, h]
  | cons a rest ih =>
    unfold place
    split
    · by_cases h : generation = other <;> simp [List.find?_cons, h]
    · split
      · rename_i hl
        by_cases ha : a.1 = other
        · have hn : generation ≠ other := fun h => UInt64.ne_of_lt hl (ha.trans h.symm)
          simp [ha, hn]
        · rw [List.find?_cons_of_neg (by simpa using ha), ih,
            List.find?_cons_of_neg (by simpa using ha)]
      · rename_i hg hl
        have heq : generation = a.1 :=
          UInt64.le_antisymm (UInt64.not_lt.mp hl) (UInt64.not_lt.mp hg)
        by_cases h : generation = other
        · simp [h]
        · rw [List.find?_cons_of_neg (by simpa using h), if_neg h,
            List.find?_cons_of_neg (by simpa using heq ▸ h)]

@[simp] theorem find?_insert (g : Generations α) (generation : UInt64) (value : α)
    (other : UInt64) :
    (g.insert generation value).find? other =
      if generation = other then some value else g.find? other :=
  find?_place generation value g.entries other

@[simp] theorem find?_erase (g : Generations α) (generation other : UInt64) :
    (g.erase generation).find? other = if generation = other then none else g.find? other := by
  unfold erase find?
  rw [List.find?_filter]
  by_cases h : generation = other
  · subst h
    rw [if_pos rfl, List.find?_eq_none.mpr (fun e _ => by simp)]
    rfl
  · rw [if_neg h]
    congr 1
    refine congrArg (List.find? · g.entries) (funext fun e => ?_)
    by_cases he : e.1 = other
    · simp [he, Ne.symm h]
    · simp [he]

end Generations

end TableStore

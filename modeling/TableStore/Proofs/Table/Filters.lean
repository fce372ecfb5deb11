import TableStore.Proofs.Table.Image

/-! Filters by their bits. Two filters of one size are equal when their bits are. A filter of keys
has the bits of these keys and no others, so it depends only on which keys they are, and the union
of the filters of two lists of keys is the filter of both lists together. -/

namespace TableStore

namespace Filter

/-! ### Equality bit by bit -/

theorem hasBit_word {f : Filter} {i j : Nat} (hj : j < 64) :
    f.hasBit (i * 64 + j) = (f.words.getD i 0).toNat.testBit j := by
  have hi : (i * 64 + j) / 64 = i := by omega
  have hm : (i * 64 + j) % 64 = j := by omega
  rw [hasBit_eq_testBit, hi, hm]

theorem word_eq_of_bits {v w : UInt64} (h : ∀ j < 64, v.toNat.testBit j = w.toNat.testBit j) :
    v = w := by
  refine UInt64.toNat_inj.mp (Nat.eq_of_testBit_eq fun j => ?_)
  by_cases hj : j < 64
  · exact h j hj
  · have hpow : 2 ^ 64 ≤ 2 ^ j := Nat.pow_le_pow_right (by decide) (Nat.le_of_not_lt hj)
    rw [Nat.testBit_lt_two_pow (Nat.lt_of_lt_of_le v.toNat_lt hpow),
      Nat.testBit_lt_two_pow (Nat.lt_of_lt_of_le w.toNat_lt hpow)]

theorem ext_hasBit {f g : Filter} (hs : f.words.size = g.words.size)
    (h : ∀ i, f.hasBit i = g.hasBit i) : f = g := by
  obtain ⟨fw, hf⟩ := f
  obtain ⟨gw, hg⟩ := g
  congr 1
  refine Array.ext hs fun i hi hi' => word_eq_of_bits fun j hj => ?_
  have hbit := h (i * 64 + j)
  rw [hasBit_word hj, hasBit_word hj] at hbit
  simpa [Array.getD, hi, hi'] using hbit

/-! ### The bits of keys -/

@[simp] theorem hasBit_empty (bits i : Nat) : (empty bits).hasBit i = false := by
  rw [hasBit_eq_testBit, empty, Array.getD_eq_getD_getElem?, Array.getElem?_replicate]
  split <;> simp

theorem insertAll_cons (f : Filter) (key : Bytes) (keys : List Bytes) :
    f.insertAll (key :: keys) = (f.insert key).insertAll keys := List.foldl_cons ..

@[simp] theorem size_insertAll (f : Filter) (keys : List Bytes) :
    (f.insertAll keys).words.size = f.words.size := by
  induction keys generalizing f with
  | nil => rfl
  | cons key keys ih => rw [insertAll_cons, ih, size_insert]

theorem hasBit_insertAll (f : Filter) (keys : List Bytes) (i : Nat) :
    (f.insertAll keys).hasBit i =
      (decide (∃ key ∈ keys, i ∈ positions f.bits key) || f.hasBit i) := by
  induction keys generalizing f with
  | nil => simp [insertAll]
  | cons key keys ih =>
    rw [insertAll_cons, ih, bits_insert, hasBit_insert, Bool.eq_iff_iff]
    simp only [Bool.or_eq_true, decide_eq_true_eq, List.mem_cons, exists_eq_or_imp]
    rw [or_left_comm, or_assoc]

/-- The filter of some keys depends only on which keys they are. -/
theorem insertAll_congr (f : Filter) {keys keys' : List Bytes}
    (h : ∀ key, key ∈ keys ↔ key ∈ keys') : f.insertAll keys = f.insertAll keys' := by
  refine ext_hasBit (by simp) fun i => ?_
  rw [hasBit_insertAll, hasBit_insertAll]
  simp only [h]

theorem insertAll_append (f : Filter) (keys keys' : List Bytes) :
    f.insertAll (keys ++ keys') = (f.insertAll keys).insertAll keys' := List.foldl_append

/-! ### Unions -/

theorem hasBit_union {f g h : Filter} (hu : f.union g = .ok h) (i : Nat) :
    h.hasBit i = (f.hasBit i || g.hasBit i) := by
  unfold union at hu
  split at hu
  · rename_i hs
    rw [← Except.ok.inj hu, hasBit_eq_testBit, hasBit_eq_testBit, hasBit_eq_testBit,
      ← Nat.testBit_or, ← UInt64.toNat_or]
    have hboth : i / 64 < min f.words.size g.words.size ↔ i / 64 < f.words.size := by omega
    congr 2
    by_cases hi : i / 64 < f.words.size
    · simp [Array.getD, hboth, hi, hs ▸ hi]
    · simp [Array.getD, hboth, hi, hs ▸ hi]
  · simp at hu

theorem size_eq_of_union {f g h : Filter} (hu : f.union g = .ok h) :
    f.words.size = g.words.size := by
  unfold union at hu
  split at hu
  · assumption
  · simp at hu

theorem union_eq_ok {f g : Filter} (hs : f.words.size = g.words.size) :
    ∃ h, f.union g = .ok h := ⟨_, dif_pos hs⟩

theorem bits_union {f g u : Filter} (hu : f.union g = .ok u) : u.bits = f.bits := by
  rw [bits, size_union hu, bits]

/-- A key can be inserted before or after uniting with another filter. -/
theorem union_insert {f g u : Filter} (hu : f.union g = .ok u) (key : Bytes) :
    (f.insert key).union g = .ok (u.insert key) := by
  have hs : (f.insert key).words.size = g.words.size := by rw [size_insert, size_eq_of_union hu]
  obtain ⟨h, hboth⟩ := union_eq_ok hs
  rw [hboth, Except.ok.injEq]
  refine ext_hasBit ?_ fun i => ?_
  · rw [size_union hboth, size_insert, size_insert, size_union hu]
  · rw [hasBit_union hboth, hasBit_insert, hasBit_insert, hasBit_union hu, bits_union hu,
      Bool.or_assoc]

/-- A filter keeps what it knows when it is united with another. -/
theorem mayContain_union {f g u : Filter} (hu : f.union g = .ok u) {key : Bytes}
    (hk : f.mayContain key = true) : u.mayContain key = true := by
  rw [mayContain, List.all_eq_true] at hk
  rw [mayContain, bits_union hu, List.all_eq_true]
  intro i hi
  rw [hasBit_union hu, hk i hi, Bool.true_or]

/-- The union of the filters of two lists of keys is the filter of both. -/
theorem union_insertAll (bits : Nat) (keys keys' : List Bytes) :
    ((empty bits).insertAll keys).union ((empty bits).insertAll keys') =
      .ok ((empty bits).insertAll (keys ++ keys')) := by
  obtain ⟨h, hu⟩ := union_eq_ok (f := (empty bits).insertAll keys)
    (g := (empty bits).insertAll keys') (by simp)
  rw [hu, Except.ok.injEq]
  refine ext_hasBit (by simpa using size_union hu) fun i => ?_
  rw [hasBit_union hu, hasBit_insertAll, hasBit_insertAll, hasBit_insertAll, Bool.eq_iff_iff]
  simp only [hasBit_empty, Bool.or_false, Bool.or_eq_true, decide_eq_true_eq, List.mem_append,
    or_and_right, exists_or]

/-! ### Empty filters of one size -/

theorem empty_congr {bits bits' : Nat} (h : (empty bits).words.size = (empty bits').words.size) :
    empty bits = empty bits' := ext_hasBit h fun i => by simp

/-- An empty filter of so many whole words has them, if four bytes can count them. -/
theorem size_empty {words : Nat} (hpos : 0 < words) (h : words < capacity 4) :
    (empty (words * 64)).words.size = words := by
  have hcap : capacity 4 = 4294967296 := rfl
  have hsize : UInt64.size = 18446744073709551616 := rfl
  show (Array.replicate _ (0 : UInt64)).size = _
  rw [Array.size_replicate, hsize]
  omega

/-- A filter whose words can be counted in a table has the size of an empty one of its bits. -/
theorem empty_bits {f : Filter} (h : f.words.size < capacity 4) :
    (empty f.bits).words.size = f.words.size := size_empty f.size_pos h

end Filter

end TableStore

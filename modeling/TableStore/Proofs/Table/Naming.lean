import TableStore.Proofs.Table.Names
import TableStore.Proofs.Text.Utf8

/-! What table names tell, exactly. A path is read as the name of a table when its last component is
the stem, decimal digits of a number that fits a generation, and the extension of a layout, and not
otherwise. Written names are such names with twenty digits, so they are read back, differ where their
tables do, and stand in the bytewise order of their generations: of two numbers written in equally
many digits, the lesser one has the lesser digit where the two first differ. -/

namespace TableStore

/-! ### Digits and their values -/

namespace Text

theorem toNat_of_isDigit {c : Char} (h : c.isDigit = true) : 48 ≤ c.toNat ∧ c.toNat ≤ 57 :=
  Char.isDigit_iff_toNat.mp h

/-- The value of digits is below that of equally many digits which a greater number precedes. -/
theorem foldl_appendDigit_lt {number other : List Char} (hd : ∀ c ∈ number, c.isDigit = true)
    (hlen : number.length = other.length) {n m : Nat} (h : n < m) :
    number.foldl appendDigit n < other.foldl appendDigit m := by
  induction number generalizing other n m with
  | nil =>
    rw [List.length_nil, eq_comm, List.length_eq_zero_iff] at hlen
    rw [hlen]
    exact h
  | cons c number ih =>
    obtain ⟨c', other, rfl⟩ := List.exists_cons_of_length_eq_add_one hlen.symm
    rw [List.forall_mem_cons] at hd
    have hdigit := toNat_of_isDigit hd.1
    rw [List.foldl_cons, List.foldl_cons]
    apply ih hd.2 (Nat.succ.inj hlen)
    unfold appendDigit
    omega

/-- The bytes of digits, which are one for each. -/
theorem utf8EncodeChar_of_isDigit {c : Char} (h : c.isDigit = true) :
    String.utf8EncodeChar c = [UInt8.ofNat c.toNat] := by
  have hdigit := toNat_of_isDigit h
  have hone : c.val.toNat ≤ 127 := Nat.le_trans hdigit.2 (by decide)
  unfold String.utf8EncodeChar
  dsimp only
  rw [if_pos hone]
  rfl

theorem ofNat_lt_ofNat_of_isDigit {c c' : Char} (h : c.isDigit = true) (h' : c'.isDigit = true)
    (hlt : c.toNat < c'.toNat) : UInt8.ofNat c.toNat < UInt8.ofNat c'.toNat := by
  have hdigit := toNat_of_isDigit h
  have hdigit' := toNat_of_isDigit h'
  rw [UInt8.lt_iff_toNat_lt, toNat_ofNat_of_lt (by omega), toNat_ofNat_of_lt (by omega)]
  exact hlt

/-- Of two numbers in equally many digits, the lesser one comes first, whatever stands behind. -/
theorem utf8_digits_lt {number other : List Char} (hd : ∀ c ∈ number, c.isDigit = true)
    (hd' : ∀ c ∈ other, c.isDigit = true) (hlen : number.length = other.length) {n : Nat}
    (h : number.foldl appendDigit n < other.foldl appendDigit n) (behind behind' : Bytes) :
    number.flatMap String.utf8EncodeChar ++ behind <
      other.flatMap String.utf8EncodeChar ++ behind' := by
  induction number generalizing other n with
  | nil =>
    rw [List.length_nil, eq_comm, List.length_eq_zero_iff] at hlen
    rw [hlen] at h
    exact absurd h (Nat.lt_irrefl _)
  | cons c number ih =>
    obtain ⟨c', other, rfl⟩ := List.exists_cons_of_length_eq_add_one hlen.symm
    have htail : number.length = other.length := Nat.succ.inj hlen
    rw [List.forall_mem_cons] at hd hd'
    rw [List.flatMap_cons, List.flatMap_cons, utf8EncodeChar_of_isDigit hd.1,
      utf8EncodeChar_of_isDigit hd'.1, List.append_assoc, List.append_assoc, List.singleton_append,
      List.singleton_append, List.cons_lt_cons_iff]
    rw [List.foldl_cons, List.foldl_cons] at h
    rcases Nat.lt_trichotomy c.toNat c'.toNat with hlt | heq | hgt
    · exact Or.inl (ofNat_lt_ofNat_of_isDigit hd.1 hd'.1 hlt)
    · rw [appendDigit, appendDigit, heq] at h
      exact Or.inr ⟨by rw [heq], ih hd.2 hd'.2 htail h⟩
    · -- A greater digit would make the whole number greater.
      have hfirst : appendDigit n c' < appendDigit n c := by
        have hdigit := toNat_of_isDigit hd'.1
        unfold appendDigit
        omega
      exact absurd h (Nat.lt_asymm (foldl_appendDigit_lt hd'.2 htail.symm hfirst))

end Text

namespace TableName

open Text.Path

/-! ### The order of names -/

theorem length_digits (generation : UInt64) : (digits generation).length = 20 := by
  have hfits : (Nat.toDigits 10 generation.toNat).length ≤ 20 := by
    rw [Nat.length_toDigits_le_iff (by decide) (by decide)]
    exact Nat.lt_of_lt_of_le generation.toNat_lt (by decide)
  rw [digits, List.length_leftpad]
  omega

theorem utf8_named (generation : UInt64) (extension : String) :
    Text.utf8 (named generation extension) = stem.toList.flatMap String.utf8EncodeChar ++
      ((digits generation).flatMap String.utf8EncodeChar ++
        ('.' :: extension.toList).flatMap String.utf8EncodeChar) := by
  rw [Text.utf8_eq, toList_named, List.flatMap_append, List.flatMap_append]

theorem utf8_named_lt {generation generation' : UInt64} (h : generation < generation')
    (extension : String) :
    Text.utf8 (named generation extension) < Text.utf8 (named generation' extension) := by
  rw [utf8_named, utf8_named]
  apply List.append_left_lt
  refine Text.utf8_digits_lt (n := 0) (fun _ => isDigit_of_mem_digits)
    (fun _ => isDigit_of_mem_digits) ((length_digits _).trans (length_digits _).symm) ?_ _ _
  have hlt := UInt64.lt_iff_toNat_lt.mp h
  rw [← decimalValue_digits generation, ← decimalValue_digits generation'] at hlt
  exact hlt

theorem utf8_named_lt_iff {generation generation' : UInt64} (extension : String) :
    Text.utf8 (named generation extension) < Text.utf8 (named generation' extension) ↔
      generation < generation' := by
  refine ⟨fun h => ?_, fun h => utf8_named_lt h extension⟩
  by_cases hlt : generation < generation'
  · exact hlt
  · rcases UInt64.lt_or_eq_of_le (UInt64.not_lt.mp hlt) with hgt | rfl
    · exact absurd (List.lt_trans h (utf8_named_lt hgt extension)) (List.lt_irrefl _)
    · exact absurd h (List.lt_irrefl _)

/-! ### Exactness -/

theorem join_empty (name : String) : join "" name = name := if_pos (Or.inr rfl)

/-- What the names of tables tell, and how they are told from those of tables being written. -/
structure AreExact : Prop where
  tells : ∀ path generation layout,
    parse? path = some (generation, layout) ↔ Names path generation layout
  silent : ∀ path, parse? path = none ↔ ∀ generation layout, ¬ Names path generation layout
  /-- Names are read back, alone and in any folder. -/
  read : ∀ generation layout, parse? (file generation layout) = some (generation, layout) ∧
    ∀ folder, parse? (join folder (file generation layout)) = some (generation, layout)
  apart : ∀ generation layout generation' layout',
    file generation layout = file generation' layout' →
      generation = generation' ∧ layout = layout'
  sorted : ∀ layout generation generation',
    Text.utf8 (file generation layout) < Text.utf8 (file generation' layout) ↔
      generation < generation'
  unfinished : ∀ generation, isTemporary (temporary generation) = true ∧
    ∀ folder, isTemporary (join folder (temporary generation)) = true
  /-- No path is the name of a table and of one being written. -/
  disjoint : ∀ path, ¬ (isTemporary path = true ∧ (parse? path).isSome = true)

/-- Table names are read exactly, whatever path they end. -/
theorem names_areExact : AreExact where
  tells _ _ _ := parse?_eq_some_iff
  silent path := by
    rw [Option.eq_none_iff_forall_ne_some, Prod.forall]
    simp only [ne_eq, parse?_eq_some_iff]
  read generation layout := by
    have hread := fun folder => parse?_join_file folder generation layout
    exact ⟨join_empty (file generation layout) ▸ hread "", hread⟩
  apart _ _ _ _ := file_injective
  sorted layout _ _ := utf8_named_lt_iff layout.extension
  unfinished generation := by
    have hread := fun folder => isTemporary_join_temporary folder generation
    exact ⟨join_empty (temporary generation) ▸ hread "", hread⟩
  disjoint path h := by
    rw [parse?_of_isTemporary h.1] at h
    simp at h

end TableName

end TableStore

/-! Byte strings in their bytewise order, and numbers written in a fixed number of
bytes, most significant first. A number that fits its width is read back from what was
written, and the written form has exactly the stated width. -/

namespace TableStore

/-- A byte string. The order is bytewise, a proper beginning of a string before it. -/
abbrev Bytes := List UInt8

theorem eq_of_not_lt_of_not_lt {a b : Bytes} (hab : ¬ a < b) (hba : ¬ b < a) : a = b :=
  List.le_antisymm (List.not_lt.mp hba) (List.not_lt.mp hab)

theorem lt_of_not_lt_of_ne {a b : Bytes} (h : ¬ b < a) (hne : b ≠ a) : a < b := by
  by_cases hlt : a < b
  · exact hlt
  · exact absurd (eq_of_not_lt_of_not_lt h hlt) hne

theorem lt_of_lt_of_not_lt {a b c : Bytes} (hab : a < b) (hcb : ¬ c < b) : a < c := by
  by_cases hbc : b < c
  · exact List.lt_trans hab hbc
  · exact eq_of_not_lt_of_not_lt hbc hcb ▸ hab

/-- The last `width` base-256 digits of `n`, most significant first. -/
def bigEndian : (width n : Nat) → Bytes
  | 0, _ => []
  | width + 1, n => bigEndian width (n / 256) ++ [UInt8.ofNat n]

/-- How many numbers `width` digits can tell apart. -/
def capacity : (width : Nat) → Nat
  | 0 => 1
  | width + 1 => capacity width * 256

/-- The number whose base-256 digits are `bytes`, most significant first. -/
def ofBigEndian (bytes : Bytes) : Nat :=
  bytes.foldl (fun n b => n * 256 + b.toNat) 0

@[simp] theorem length_bigEndian (width n : Nat) : (bigEndian width n).length = width := by
  induction width generalizing n with
  | zero => rfl
  | succ width ih => simp [bigEndian, ih]

theorem ofBigEndian_append_singleton (bytes : Bytes) (b : UInt8) :
    ofBigEndian (bytes ++ [b]) = ofBigEndian bytes * 256 + b.toNat := by
  simp [ofBigEndian]

theorem ofBigEndian_bigEndian {width n : Nat} (h : n < capacity width) :
    ofBigEndian (bigEndian width n) = n := by
  induction width generalizing n with
  | zero =>
    have : n = 0 := by
      rw [capacity] at h
      omega
    subst this
    rfl
  | succ width ih =>
    have hd : n / 256 < capacity width := by
      rw [capacity] at h
      omega
    rw [bigEndian, ofBigEndian_append_singleton, ih hd, UInt8.toNat_ofNat']
    omega

end TableStore

import TableStore.Text.Utf8

/-! Text that is written as UTF-8 is read back as it was. The encoding of a character begins with a
byte that tells how many bytes follow and holds the first digits of its number, and each byte that
follows holds the next ones; the ranges that leave out overlong forms and surrogate halves leave
out no character. -/

namespace TableStore.Text

/-! ### One byte -/

theorem toNat_ofNat_of_lt {n : Nat} (h : n < 256) : (UInt8.ofNat n).toNat = n := by
  rw [UInt8.toNat_ofNat']
  omega

variable {byte payload missing low high : Nat} {rest : Bytes}

theorem lossyFrom_first (hb : 0x80 ≤ byte) (hlt : byte < 256)
    (h : leading? byte = some (payload, missing, low, high)) :
    lossyFrom none (UInt8.ofNat byte :: rest) =
      lossyFrom (some ⟨payload, missing, low, high⟩) rest := by
  rw [lossyFrom, step, begin, toNat_ofNat_of_lt hlt, if_neg (Nat.not_lt.mpr hb), h]
  rfl

theorem lossyFrom_next (hlt : byte < 256) (hl : low ≤ byte) (hh : byte ≤ high) :
    lossyFrom (some ⟨payload, missing + 2, low, high⟩) (UInt8.ofNat byte :: rest) =
      lossyFrom (some ⟨payload * 64 + byte % 64, missing + 1, 0x80, 0xbf⟩) rest := by
  rw [lossyFrom, step, toNat_ofNat_of_lt hlt, if_pos ⟨hl, hh⟩, if_neg (by simp)]
  rfl

theorem lossyFrom_last (hlt : byte < 256) (hl : low ≤ byte) (hh : byte ≤ high) :
    lossyFrom (some ⟨payload, 1, low, high⟩) (UInt8.ofNat byte :: rest) =
      Char.ofNat (payload * 64 + byte % 64) :: lossyFrom none rest := by
  rw [lossyFrom, step, toNat_ofNat_of_lt hlt, if_pos ⟨hl, hh⟩, if_pos (Nat.le_refl 1)]
  rfl

/-! ### One character -/

theorem exists_leading_of_three {n : Nat} (hlow : 2048 ≤ n) (hhigh : n < 65536)
    (hn : n < 0xd800 ∨ 0xdfff < n) : ∃ low high,
      leading? (n / 4096 % 16 + 224) = some (n / 4096, 2, low, high) ∧
      low ≤ n / 64 % 64 + 128 ∧ n / 64 % 64 + 128 ≤ high := by
  have hmod : n / 4096 % 16 = n / 4096 := by omega
  rw [hmod]
  unfold leading?
  rw [if_neg (by omega)]
  by_cases hzero : n / 4096 = 0
  · rw [if_pos (by omega), hzero]
    exact ⟨_, _, rfl, by omega, by omega⟩
  · rw [if_neg (by omega)]
    by_cases hsurrogate : n / 4096 = 13
    · rw [if_pos (by omega), hsurrogate]
      exact ⟨_, _, rfl, by omega, by omega⟩
    · rw [if_neg (by omega), if_pos (by omega), Nat.add_sub_cancel]
      exact ⟨_, _, rfl, by omega, by omega⟩

theorem exists_leading_of_four {n : Nat} (hlow : 65536 ≤ n) (hhigh : n < 0x110000) :
    ∃ low high, leading? (n / 262144 % 8 + 240) = some (n / 262144, 3, low, high) ∧
      low ≤ n / 4096 % 64 + 128 ∧ n / 4096 % 64 + 128 ≤ high := by
  have hmod : n / 262144 % 8 = n / 262144 := by omega
  rw [hmod]
  unfold leading?
  rw [if_neg (by omega), if_neg (by omega), if_neg (by omega), if_neg (by omega)]
  by_cases hzero : n / 262144 = 0
  · rw [if_pos (by omega), hzero]
    exact ⟨_, _, rfl, by omega, by omega⟩
  · rw [if_neg (by omega)]
    by_cases hlast : n / 262144 = 4
    · rw [if_neg (by omega), if_pos (by omega), hlast]
      exact ⟨_, _, rfl, by omega, by omega⟩
    · rw [if_pos (by omega), Nat.add_sub_cancel]
      exact ⟨_, _, rfl, by omega, by omega⟩

/-- The encoding of a character is read as the character. -/
theorem lossyFrom_utf8EncodeChar (c : Char) (rest : Bytes) :
    lossyFrom none (String.utf8EncodeChar c ++ rest) = c :: lossyFrom none rest := by
  have hself : Char.ofNat c.val.toNat = c := Char.ofNat_toNat c
  have hvalid : c.val.toNat < 0xd800 ∨ 0xdfff < c.val.toNat ∧ c.val.toNat < 0x110000 := c.valid
  unfold String.utf8EncodeChar
  generalize c.val.toNat = n at hself hvalid
  dsimp only
  by_cases hone : n ≤ 127
  · rw [if_pos hone, List.singleton_append, lossyFrom, step, begin,
      toNat_ofNat_of_lt (by omega), if_pos (by omega), hself]
    rfl
  rw [if_neg hone]
  by_cases htwo : n ≤ 2047
  · have hlead : leading? (n / 64 % 32 + 192) = some (n / 64, 1, 0x80, 0xbf) := by
      have hmod : n / 64 % 32 = n / 64 := by omega
      rw [hmod, leading?, if_pos (by omega), Nat.add_sub_cancel]
    have hnumber : n / 64 * 64 + (n % 64 + 128) % 64 = n := by omega
    rw [if_pos htwo, List.cons_append, List.singleton_append,
      lossyFrom_first (by omega) (by omega) hlead,
      lossyFrom_last (by omega) (by omega) (by omega), hnumber, hself]
  rw [if_neg htwo]
  by_cases hthree : n ≤ 65535
  · obtain ⟨low, high, hlead, hl, hh⟩ :=
      exists_leading_of_three (n := n) (by omega) (by omega) (by omega)
    have hnumber : (n / 4096 * 64 + (n / 64 % 64 + 128) % 64) * 64 + (n % 64 + 128) % 64 = n := by
      omega
    rw [if_pos hthree, List.cons_append, List.cons_append, List.singleton_append,
      lossyFrom_first (by omega) (by omega) hlead, lossyFrom_next (by omega) hl hh,
      lossyFrom_last (by omega) (by omega) (by omega), hnumber, hself]
  rw [if_neg hthree]
  obtain ⟨low, high, hlead, hl, hh⟩ := exists_leading_of_four (n := n) (by omega) (by omega)
  have hnumber : ((n / 262144 * 64 + (n / 4096 % 64 + 128) % 64) * 64 +
      (n / 64 % 64 + 128) % 64) * 64 + (n % 64 + 128) % 64 = n := by omega
  rw [List.cons_append, List.cons_append, List.cons_append, List.singleton_append,
    lossyFrom_first (by omega) (by omega) hlead, lossyFrom_next (by omega) hl hh,
    lossyFrom_next (by omega) (by omega) (by omega),
    lossyFrom_last (by omega) (by omega) (by omega), hnumber, hself]

/-! ### Texts -/

theorem utf8_eq (s : String) : utf8 s = s.toList.flatMap String.utf8EncodeChar := by
  have hbytes : s.toUTF8 = s.toList.utf8Encode := String.utf8Encode_toList.symm
  rw [utf8, hbytes, List.utf8Encode, List.data_toByteArray, List.toList_toArray]

theorem lossyFrom_flatMap (text : List Char) :
    lossyFrom none (text.flatMap String.utf8EncodeChar) = text := by
  induction text with
  | nil => rfl
  | cons c text ih => rw [List.flatMap_cons, lossyFrom_utf8EncodeChar, ih]

@[simp] theorem lossy_utf8 (s : String) : lossy (utf8 s) = s := by
  rw [lossy, utf8_eq, lossyFrom_flatMap, String.ofList_toList]

/-- Texts with the same bytes are the same. -/
theorem utf8_injective {s s' : String} (h : utf8 s = utf8 s') : s = s' := by
  rw [← lossy_utf8 s, h, lossy_utf8]

end TableStore.Text

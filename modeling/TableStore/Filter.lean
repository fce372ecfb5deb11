import TableStore.Fault

/-! A Bloom filter over keys. Each of seven multipliers hashes a key to one bit; a key may be
in the set when all its bits are set, so a key that was inserted is never denied. Filters of
one size unite bit by bit, and a filter is stored as its words, so a stored table restores it
exactly. -/

namespace TableStore

/-- The words of a bit set; there is at least one. -/
structure Filter where
  words : Array UInt64
  size_pos : 0 < words.size
  deriving DecidableEq

namespace Filter

/-! ### Bits -/

/-- The number of bits. -/
def bits (f : Filter) : Nat := f.words.size * 64

/-- The empty filter of at least `bits` bits, in whole words and at least one. The bits are
counted in 64 bits. -/
def empty (bits : Nat) : Filter where
  words := Array.replicate (max ((bits + 63) % UInt64.size / 64) 1) 0
  size_pos := by
    rw [Array.size_replicate]
    omega

/-- Whether bit `i` is set. -/
def hasBit (f : Filter) (i : Nat) : Bool :=
  (f.words.getD (i / 64) 0 >>> (i % 64).toUInt64) &&& 1 == 1

def setBit (f : Filter) (i : Nat) : Filter where
  words := f.words.modify (i / 64) fun w => w ||| (1 <<< (i % 64).toUInt64)
  size_pos := by simpa using f.size_pos

theorem bits_pos (f : Filter) : 0 < f.bits := by
  have := f.size_pos
  unfold bits
  omega

theorem hasBit_eq_testBit (f : Filter) (i : Nat) :
    f.hasBit i = (f.words.getD (i / 64) 0).toNat.testBit (i % 64) := by
  have hi : i % 64 < 64 := Nat.mod_lt _ (by omega)
  have hk : (i % 64).toUInt64.toNat % 64 = i % 64 := by
    rw [Nat.toUInt64_eq, UInt64.toNat_ofNat']
    omega
  rw [hasBit, Bool.eq_iff_iff, beq_iff_eq, ← UInt64.toNat_inj, UInt64.toNat_and,
    UInt64.toNat_shiftRight, hk]
  rw [Nat.testBit, Nat.and_comm]
  simp only [UInt64.toNat_one, bne_iff_ne, Nat.one_and_eq_mod_two]
  omega

@[simp] theorem bits_setBit (f : Filter) (i : Nat) : (f.setBit i).bits = f.bits := by
  simp [bits, setBit]

theorem hasBit_setBit (f : Filter) {i : Nat} (hi : i < f.bits) (j : Nat) :
    (f.setBit i).hasBit j = (decide (i = j) || f.hasBit j) := by
  have hs : i / 64 < f.words.size := by
    unfold bits at hi
    omega
  rw [hasBit_eq_testBit, hasBit_eq_testBit, setBit, Array.getD_eq_getD_getElem?,
    Array.getD_eq_getD_getElem?, Array.getElem?_modify]
  by_cases hw : i / 64 = j / 64
  · rw [if_pos hw, ← hw, Array.getElem?_eq_getElem hs]
    have hi64 : i % 64 < 64 := Nat.mod_lt _ (by omega)
    have hk : (i % 64).toUInt64.toNat % 64 = i % 64 := by
      rw [Nat.toUInt64_eq, UInt64.toNat_ofNat']
      omega
    simp only [Option.map_some, Option.getD_some, UInt64.toNat_or, UInt64.toNat_shiftLeft, hk]
    rw [Nat.testBit_or, Nat.testBit_mod_two_pow]
    rw [UInt64.toNat_one, Nat.testBit_shiftLeft]
    have hj64 : j % 64 < 64 := Nat.mod_lt _ (by omega)
    rw [Bool.or_comm]
    congr 1
    rw [Bool.eq_iff_iff]
    simp only [Bool.and_eq_true, decide_eq_true_eq, Nat.testBit_one_eq_true_iff_self_eq_zero]
    omega
  · rw [if_neg hw]
    have : ¬ i = j := fun h => hw (h ▸ rfl)
    simp [this]

/-! ### Hashing -/

/-- One hash round per multiplier. -/
def multipliers : List UInt64 := [29, 31, 37, 43, 47, 113, 211]

/-- The polynomial in `multiplier` whose coefficients are a leading one and the key's bytes,
modulo the word size. -/
def polynomial (multiplier : UInt64) (key : Bytes) : UInt64 :=
  key.foldl (fun h b => h * multiplier + b.toUInt64) 1

/-- Spreads a hash over all bits of a word. -/
def mix (h : UInt64) : UInt64 :=
  let h := (h ^^^ (h >>> 33)) * 0xff51afd7ed558ccd
  let h := (h ^^^ (h >>> 33)) * 0xc4ceb9fe1a85ec53
  h ^^^ (h >>> 33)

/-- The bit of a key under one multiplier in a filter of `bits` bits. -/
def position (bits : Nat) (key : Bytes) (multiplier : UInt64) : Nat :=
  (mix (polynomial multiplier key ^^^ multiplier)).toNat % bits

/-- The bits of a key in a filter of `bits` bits. -/
def positions (bits : Nat) (key : Bytes) : List Nat := multipliers.map (position bits key)

def insert (f : Filter) (key : Bytes) : Filter := (positions f.bits key).foldl setBit f

def insertAll (f : Filter) (keys : List Bytes) : Filter := keys.foldl insert f

/-- Whether the key may be in the set; `false` only for a key that is not. -/
def mayContain (f : Filter) (key : Bytes) : Bool := (positions f.bits key).all f.hasBit

theorem lt_bits_of_mem_positions {f : Filter} {key : Bytes} {i : Nat}
    (h : i ∈ positions f.bits key) : i < f.bits := by
  obtain ⟨multiplier, _, rfl⟩ := List.mem_map.mp h
  exact Nat.mod_lt _ f.bits_pos

theorem bits_foldl_setBit (f : Filter) (is : List Nat) : (is.foldl setBit f).bits = f.bits := by
  induction is generalizing f with
  | nil => rfl
  | cons i is ih => rw [List.foldl_cons, ih, bits_setBit]

theorem hasBit_foldl_setBit (f : Filter) {is : List Nat} (h : ∀ i ∈ is, i < f.bits) (j : Nat) :
    (is.foldl setBit f).hasBit j = (decide (j ∈ is) || f.hasBit j) := by
  induction is generalizing f with
  | nil => simp
  | cons i is ih =>
    have hi := h i List.mem_cons_self
    have hr : ∀ k ∈ is, k < (f.setBit i).bits := fun k hk => by
      rw [bits_setBit]
      exact h k (List.mem_cons_of_mem _ hk)
    rw [List.foldl_cons, ih _ hr, hasBit_setBit f hi, Bool.eq_iff_iff]
    simp only [Bool.or_eq_true, decide_eq_true_eq, List.mem_cons]
    rw [eq_comm (a := i), or_left_comm, or_assoc]

@[simp] theorem bits_insert (f : Filter) (key : Bytes) : (f.insert key).bits = f.bits :=
  bits_foldl_setBit f _

theorem hasBit_insert (f : Filter) (key : Bytes) (j : Nat) :
    (f.insert key).hasBit j = (decide (j ∈ positions f.bits key) || f.hasBit j) :=
  hasBit_foldl_setBit f (fun _ => lt_bits_of_mem_positions) j

theorem mayContain_insert_self (f : Filter) (key : Bytes) : (f.insert key).mayContain key := by
  rw [mayContain, bits_insert, List.all_eq_true]
  intro i hi
  rw [hasBit_insert, decide_eq_true hi, Bool.true_or]

theorem mayContain_insert {f : Filter} {other : Bytes} (h : f.mayContain other) (key : Bytes) :
    (f.insert key).mayContain other := by
  rw [mayContain, List.all_eq_true] at h
  rw [mayContain, bits_insert, List.all_eq_true]
  intro i hi
  rw [hasBit_insert, h i hi, Bool.or_true]

/-! ### Whole filters -/

/-- All bits of either filter; the sizes must agree. -/
def union (f g : Filter) : Except Fault Filter :=
  if h : f.words.size = g.words.size then
    .ok ⟨Array.zipWith (· ||| ·) f.words g.words, by
      simpa [← h] using f.size_pos⟩
  else .error (.misfit (.filterSizes f.bits g.bits))

/-- The filter with the given words, of which there must be one. -/
def ofWords (words : Array UInt64) : Except Fault Filter :=
  if h : 0 < words.size then .ok ⟨words, h⟩ else .error (.damage .emptyFilter)

/-- The words, eight bytes each. -/
def wordBytes (f : Filter) : Bytes := f.words.toList.flatMap fun w => bigEndian 8 w.toNat

/-- The words followed by their number. -/
def encode (f : Filter) : Bytes := f.wordBytes ++ bigEndian 4 f.words.size

/-- The first `n` words of a byte string. -/
def readWords : (n : Nat) → Bytes → List UInt64
  | 0, _ => []
  | n + 1, bytes => UInt64.ofNat (ofBigEndian (bytes.take 8)) :: readWords n (bytes.drop 8)

/-- Reads `n` words and nothing more. Sizes are told in 64 bits. -/
def decodeWords (bytes : Bytes) (n : Nat) : Except Fault Filter :=
  if bytes.length = n * 8 then ofWords (readWords n bytes).toArray
  else .error (.damage (.filterSize (n * 8 % UInt64.size) bytes.length))

/-- One line about a filter. -/
def describe (f : Filter) : String := "BloomFilter \x7b num_bits: " ++ toString f.bits ++ " \x7d"

end Filter

end TableStore

/-! Decimal numerals. A numeral may be of any length; where only small numbers count, reading
stops adding digits once the number is too large. -/

namespace TableStore.Text

/-- The number that one more digit makes of `n`. -/
def appendDigit (n : Nat) (digit : Char) : Nat := n * 10 + (digit.toNat - 48)

/-- The number that decimal digits denote, the first of them weighing most. -/
def decimalValue (digits : List Char) : Nat := digits.foldl appendDigit 0

/-- The number that a text denotes, if it is nothing but digits and at least one. -/
def decimal? (text : List Char) : Option Nat :=
  if text ≠ [] ∧ text.all Char.isDigit then some (decimalValue text) else none

/-! ### Bounded numbers -/

/-- One more digit, unless the number has reached `limit`. -/
def appendBelow (limit n : Nat) (digit : Char) : Nat :=
  if n < limit then appendDigit n digit else n

/-- The number below `limit` that a text denotes. -/
def decimalBelow? (limit : Nat) (text : List Char) : Option Nat :=
  if text ≠ [] ∧ text.all Char.isDigit then
    some (text.foldl (appendBelow limit) 0) |>.filter (· < limit)
  else none

theorem le_foldl_appendDigit (digits : List Char) (n : Nat) : n ≤ digits.foldl appendDigit n := by
  induction digits generalizing n with
  | nil => exact Nat.le_refl n
  | cons c cs ih =>
    refine Nat.le_trans ?_ (ih (appendDigit n c))
    unfold appendDigit
    omega

theorem foldl_appendBelow_of_le {limit n : Nat} (h : limit ≤ n) (digits : List Char) :
    digits.foldl (appendBelow limit) n = n := by
  induction digits with
  | nil => rfl
  | cons c cs ih => rw [List.foldl_cons, appendBelow, if_neg (Nat.not_lt.mpr h), ih]

/-- The bounded number is the number itself, or both have reached the limit. -/
theorem foldl_appendBelow (limit : Nat) (digits : List Char) (n : Nat) :
    digits.foldl (appendBelow limit) n = digits.foldl appendDigit n ∨
      limit ≤ digits.foldl (appendBelow limit) n ∧ limit ≤ digits.foldl appendDigit n := by
  induction digits generalizing n with
  | nil => exact .inl rfl
  | cons c cs ih =>
    by_cases h : n < limit
    · simp only [List.foldl_cons, appendBelow, if_pos h]
      exact ih (appendDigit n c)
    · have hn := Nat.not_lt.mp h
      refine .inr ⟨?_, Nat.le_trans hn (le_foldl_appendDigit (c :: cs) n)⟩
      rw [foldl_appendBelow_of_le hn]
      exact hn

theorem decimalBelow?_eq (limit : Nat) (text : List Char) :
    decimalBelow? limit text = (decimal? text).filter (· < limit) := by
  unfold decimalBelow? decimal?
  split
  · rcases foldl_appendBelow limit text 0 with h | ⟨hb, hd⟩
    · rw [h, decimalValue]
    · simp only [Option.filter_some, decimalValue]
      rw [if_neg (by simpa using hb), if_neg (by simpa using hd)]
  · rfl

end TableStore.Text

import TableStore.Clock

/-! The first stamps of clocks. A process that draws one stamp draws a number of whole milliseconds,
or the greatest stamp where that is passed, or one where the reading is not positive. Two such
stamps that differ are far apart, so a list of them that increases is not long. -/

namespace TableStore

theorem toInt_max (a b : Int64) : (max a b).toInt = max a.toInt b.toInt := by
  show (if a ≤ b then b else a).toInt = _
  split <;> rename_i h <;> rw [Int64.le_iff_toInt_le] at h <;> omega

namespace Clock

theorem toInt_saturatingTicks {millis : Int64} (h : 0 ≤ millis.toInt) :
    (saturatingTicks millis).toInt = min (millis.toInt * 1000000) 9223372036854775807 := by
  have hgreatest : Int64.maxValue.toInt = 9223372036854775807 := rfl
  have hticks : ticksPerMilli.toInt = 1000000 := rfl
  unfold saturatingTicks
  rw [hticks, hgreatest]
  split
  · rw [hgreatest]
    omega
  · rw [Int64.toInt_mul, hticks, Int.bmod_eq_of_le (by omega) (by omega)]
    omega

/-- What a process draws first. -/
def first (millis : Int64) : Stamp := (draw {} millis).1

theorem toInt_first (millis : Int64) : (first millis).toInt =
    max (min (max millis.toInt 0 * 1000000) 9223372036854775807) 1 := by
  have hfirst : first millis = max (saturatingTicks (max millis 0) + 0) (0 + 1) := rfl
  have hzero : (0 : Int64).toInt = 0 := rfl
  have hone : (1 : Int64).toInt = 1 := rfl
  have hmillis : (max millis 0).toInt = max millis.toInt 0 := toInt_max millis 0
  rw [hfirst, Int64.add_zero, Int64.zero_add, toInt_max, hone,
    toInt_saturatingTicks (by omega), hmillis]

/-- First stamps that differ are at least a hundred apart. -/
theorem first_add_le {a b : Int64} (h : first a < first b) :
    (first a).toInt + 100 ≤ (first b).toInt := by
  rw [Int64.lt_iff_toInt_lt] at h
  rw [toInt_first, toInt_first] at *
  omega

/-- Increasing first stamps from some number on fill a hundredth of the numbers above it at most. -/
theorem length_le_above {stamps : List Stamp} {least : Int} (hle : least ≤ 9223372036854775907)
    (hf : ∀ s ∈ stamps, ∃ millis, s = first millis) (hleast : ∀ s ∈ stamps, least ≤ s.toInt)
    (h : stamps.Pairwise (· < ·)) :
    100 * (stamps.length : Int) ≤ 9223372036854775907 - least := by
  induction stamps generalizing least with
  | nil =>
    rw [List.length_nil]
    omega
  | cons s stamps ih =>
    rw [List.forall_mem_cons] at hf hleast
    obtain ⟨hbelow, hstamps⟩ := List.pairwise_cons.mp h
    obtain ⟨⟨a, rfl⟩, hfirst⟩ := hf
    have hspaced : ∀ t ∈ stamps, (first a).toInt + 100 ≤ t.toInt := by
      intro t ht
      obtain ⟨b, rfl⟩ := hfirst t ht
      exact first_add_le (hbelow _ ht)
    have hgreatest : (first a).toInt ≤ 9223372036854775807 := (first a).toInt_le
    have hrest := ih (by omega) hfirst hspaced hstamps
    have hhead := hleast.1
    rw [List.length_cons]
    omega

/-- Increasing first stamps are few. -/
theorem length_le_of_increasing {stamps : List Stamp}
    (hf : ∀ s ∈ stamps, ∃ millis, s = first millis) (h : stamps.Pairwise (· < ·)) :
    100 * stamps.length ≤ 9223372036854775907 := by
  have hpositive : ∀ s ∈ stamps, 0 ≤ s.toInt := by
    intro s hs
    obtain ⟨millis, rfl⟩ := hf s hs
    rw [toInt_first]
    omega
  have hle := length_le_above (by omega) hf hpositive h
  omega

end Clock

end TableStore

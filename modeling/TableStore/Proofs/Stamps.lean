import Mathlib.Data.List.Forall2
import TableStore.Proofs.Clock

/-! Stamps drawn one after another. A draw comes to a number that can be said without regard to
widths: the reading in ticks and the tick of the draw, or one more than the last stamp if that is
greater. As long as this number fits a stamp nothing on the way to it is cut off, it is what the draw
returns, and it is kept as the last stamp. So stamps increase whatever the wall clock and the ticks
do, and none is behind its reading. Callers that come between one another count and raise the last
stamp in any order; what each returns is still above all that was returned before. -/

namespace TableStore

namespace Clock

variable {clock : Clock} {millis : Int64} {readings : List Int64}

/-! ### One draw -/

/-- The tick of the next draw. -/
def tick (clock : Clock) : Int64 := clock.count.1

/-- What the next draw comes to, in numbers without a bound. -/
def unbounded (clock : Clock) (millis : Int64) : Int :=
  max (max millis.toInt 0 * 1000000 + clock.tick.toInt) (clock.last.toInt + 1)

/-- A draw in which no number is cut off and what it returns is what it keeps. -/
structure DrawsExactly (clock : Clock) (millis : Int64) : Prop where
  product : (saturatingTicks (max millis 0)).toInt = max millis.toInt 0 * 1000000
  sum : (candidate millis clock.tick).toInt = max millis.toInt 0 * 1000000 + clock.tick.toInt
  increment : (clock.last + 1).toInt = clock.last.toInt + 1
  returned : (clock.draw millis).1.toInt = clock.unbounded millis
  kept : (clock.draw millis).2.last = (clock.draw millis).1

theorem toInt_tick (clock : Clock) : 0 ≤ clock.tick.toInt ∧ clock.tick.toInt < 1000000 := by
  have hmillion : (1000000 : UInt64).toNat = 1000000 := rfl
  have hlt : (clock.drawn % 1000000).toNat < 1000000 := by
    rw [UInt64.toNat_mod, hmillion]
    exact Nat.mod_lt _ (by decide)
  have htick : clock.tick.toInt = (clock.drawn % 1000000).toNat := by
    show ((clock.drawn % 1000000).toBitVec).toInt = _
    rw [BitVec.toInt_eq_toNat_of_lt]
    · rfl
    · have hnat : (clock.drawn % 1000000).toBitVec.toNat = (clock.drawn % 1000000).toNat := rfl
      omega
  omega

theorem draw_exactly (h : 0 ≤ clock.last.toInt)
    (hr : clock.unbounded millis < 9223372036854775808) : clock.DrawsExactly millis := by
  have htick := clock.toInt_tick
  have hzero : (0 : Int64).toInt = 0 := rfl
  have hone : (1 : Int64).toInt = 1 := rfl
  have hmillis : (max millis 0).toInt = max millis.toInt 0 := toInt_max millis 0
  unfold unbounded at hr
  have hproduct : (saturatingTicks (max millis 0)).toInt = max millis.toInt 0 * 1000000 := by
    rw [toInt_saturatingTicks (by omega), hmillis]
    omega
  have hsum : (candidate millis clock.tick).toInt =
      max millis.toInt 0 * 1000000 + clock.tick.toInt := by
    rw [candidate, Int64.toInt_add, hproduct, Int.bmod_eq_of_le (by omega) (by omega)]
  have hincrement : (clock.last + 1).toInt = clock.last.toInt + 1 := by
    rw [Int64.toInt_add, hone, Int.bmod_eq_of_le (by omega) (by omega)]
  refine ⟨hproduct, hsum, hincrement, ?_, rfl⟩
  show (max (candidate millis clock.tick) (clock.last + 1)).toInt = _
  rw [toInt_max, hsum, hincrement]
  rfl

theorem DrawsExactly.last_lt (d : clock.DrawsExactly millis) :
    clock.last < (clock.draw millis).1 := by
  rw [Int64.lt_iff_toInt_lt, d.returned, unbounded]
  omega

theorem DrawsExactly.le_returned (d : clock.DrawsExactly millis) :
    millis.toInt * 1000000 ≤ (clock.draw millis).1.toInt := by
  have htick := clock.toInt_tick
  rw [d.returned, unbounded]
  omega

/-! ### Successive draws -/

/-- The clock after draws at successive readings. -/
def after (clock : Clock) (readings : List Int64) : Clock :=
  readings.foldl (fun clock millis => (clock.draw millis).2) clock

/-- Successive draws come to numbers below 2^63, the first that is no stamp. -/
def HasRoomFor (clock : Clock) : List Int64 → Prop
  | [] => True
  | millis :: rest =>
    clock.unbounded millis < 9223372036854775808 ∧ (clock.draw millis).2.HasRoomFor rest

/-- Readings of at most nine trillion milliseconds leave room for more draws than can be made. -/
theorem hasRoomFor_of_le (h : 0 ≤ clock.last.toInt)
    (hm : ∀ millis ∈ readings, millis ≤ 9000000000000)
    (hn : max clock.last.toInt 9000000000000999999 + readings.length < 9223372036854775808) :
    clock.HasRoomFor readings := by
  induction readings generalizing clock with
  | nil => trivial
  | cons millis rest ih =>
    rw [List.forall_mem_cons] at hm
    rw [List.length_cons] at hn
    have htick := clock.toInt_tick
    have hbound : (9000000000000 : Int64).toInt = 9000000000000 := rfl
    have hfirst := Int64.le_iff_toInt_le.mp hm.1
    have hnext : clock.unbounded millis ≤ max clock.last.toInt 9000000000000999999 + 1 := by
      unfold unbounded
      omega
    have hlow : clock.last.toInt + 1 ≤ clock.unbounded millis := Int.le_max_right _ _
    have d : clock.DrawsExactly millis := draw_exactly h (by omega)
    have hlast : (clock.draw millis).2.last.toInt = clock.unbounded millis := by
      rw [d.kept, d.returned]
    exact ⟨by omega, ih (by omega) hm.2 (by omega)⟩

/-- What the draws at successive readings come to. -/
structure DrawsInOrder (clock : Clock) (readings : List Int64) : Prop where
  increasing : (clock.last :: clock.drawAll readings).Pairwise (· < ·)
  positive : ∀ stamp ∈ clock.drawAll readings, 0 < stamp
  reached : List.Forall₂ (fun millis stamp => millis.toInt * 1000000 ≤ stamp.toInt) readings
    (clock.drawAll readings)
  exact : ∀ front millis back, readings = front ++ millis :: back →
    (clock.after front).DrawsExactly millis
  kept : (clock.after readings).last = (clock.drawAll readings).getLast?.getD clock.last

theorem drawsInOrder_nil (clock : Clock) : clock.DrawsInOrder [] where
  increasing := List.pairwise_singleton _ _
  positive := fun _ hm => absurd hm List.not_mem_nil
  reached := .nil
  exact := fun front _ _ hs => by simp at hs
  kept := rfl

/-- A draw in front of others. -/
theorem DrawsExactly.drawsInOrder (h : 0 ≤ clock.last.toInt) (d : clock.DrawsExactly millis)
    (i : (clock.draw millis).2.DrawsInOrder readings) :
    clock.DrawsInOrder (millis :: readings) := by
  have hcons : clock.drawAll (millis :: readings) =
      (clock.draw millis).1 :: (clock.draw millis).2.drawAll readings := rfl
  have hrest := i.increasing
  rw [d.kept] at hrest
  have hlater : ∀ stamp ∈ clock.drawAll (millis :: readings), clock.last < stamp := by
    intro stamp hm
    rcases List.mem_cons.mp (hcons ▸ hm) with rfl | hm
    · exact d.last_lt
    · exact Int64.lt_trans d.last_lt (List.rel_of_pairwise_cons hrest hm)
  refine ⟨List.pairwise_cons.mpr ⟨hlater, hcons ▸ hrest⟩, fun stamp hm => ?_, ?_, ?_, ?_⟩
  · have hlt := hlater stamp hm
    have hzero : (0 : Int64).toInt = 0 := rfl
    rw [Int64.lt_iff_toInt_lt] at hlt ⊢
    omega
  · exact .cons d.le_returned i.reached
  · intro front other back hs
    cases front with
    | nil =>
      obtain ⟨rfl, -⟩ := List.cons.inj hs
      exact d
    | cons first front =>
      rw [List.cons_append, List.cons.injEq] at hs
      obtain ⟨rfl, hs⟩ := hs
      exact i.exact front other back hs
  · have hafter : (clock.after (millis :: readings)).last =
        ((clock.draw millis).2.after readings).last := rfl
    rw [hafter, i.kept, hcons, List.getLast?_cons, d.kept]
    rfl

/-- Successive draws return increasing stamps, none behind its reading, and nothing overflows, as
long as what they come to fits a stamp. -/
theorem draws_inOrder (h : 0 ≤ clock.last.toInt) (hr : clock.HasRoomFor readings) :
    clock.DrawsInOrder readings := by
  induction readings generalizing clock with
  | nil => exact clock.drawsInOrder_nil
  | cons millis readings ih =>
    have d := draw_exactly h hr.1
    refine d.drawsInOrder h (ih ?_ hr.2)
    have hlt := Int64.lt_iff_toInt_lt.mp d.last_lt
    rw [d.kept]
    omega

/-- The ticks start over while the wall clock stands still, which then steps back before the
epoch. -/
theorem inOrder_of_wrapped_ticks :
    ({ drawn := 999999, last := 5000000 } : Clock).DrawsInOrder [5, 5, -7, 9000000000000] ∧
      ({ drawn := 999999, last := 5000000 } : Clock).drawAll [5, 5, -7, 9000000000000] =
        [5999999, 6000000, 6000001, 9000000000000000002] :=
  ⟨draws_inOrder (by decide) (hasRoomFor_of_le (by decide) (by simp) (by decide)), by decide⟩

end Clock

/-! ### Callers side by side -/

/-- A last stamp that is not the greatest is raised, whatever is asked for. -/
theorem Clock.lt_raised {last : Stamp} (candidate : Stamp) (h : last < Int64.maxValue) :
    last < max candidate (last + 1) := by
  have hone : (1 : Int64).toInt = 1 := rfl
  have hgreatest : Int64.maxValue.toInt = 9223372036854775807 := rfl
  have hleast := last.le_toInt
  rw [Int64.lt_iff_toInt_lt, hgreatest] at h
  rw [Int64.lt_iff_toInt_lt, toInt_max, Int64.toInt_add, hone,
    Int.bmod_eq_of_le (by omega) (by omega)]
  omega

/-- A step of one of the callers of a clock: it counts and works out what to ask for, or it raises the
last stamp to that and returns. -/
inductive Turn
  | ask (caller : Nat) (millis : Int64)
  | answer (caller : Nat)
  deriving DecidableEq

/-- A clock, what its callers are asking for, and the stamps returned so far. -/
structure Callers where
  clock : Clock
  asked : List (Nat × Stamp)
  returned : List Stamp

namespace Callers

variable {c : Callers} {turns : List Turn}

/-- A turn. A caller that waits for an answer does not ask again, and one that has not asked gets no
answer. -/
def take (c : Callers) : Turn → Callers
  | .ask caller millis =>
    if c.asked.any (·.1 == caller) then c
    else
      let (tick, clock) := c.clock.count
      { c with clock, asked := c.asked ++ [(caller, Clock.candidate millis tick)] }
  | .answer caller =>
    match c.asked.find? (·.1 == caller) with
    | none => c
    | some (_, candidate) =>
      let (previous, clock) := c.clock.raise candidate
      ⟨clock, c.asked.filter (·.1 ≠ caller), c.returned ++ [max candidate (previous + 1)]⟩

def run (c : Callers) (turns : List Turn) : Callers := turns.foldl take c

/-- A caller that nobody comes between draws as it would alone. -/
theorem run_alone (clock : Clock) (returned : List Stamp) (caller : Nat) (millis : Int64) :
    run ⟨clock, [], returned⟩ [.ask caller millis, .answer caller] =
      ⟨(clock.draw millis).2, [], returned ++ [(clock.draw millis).1]⟩ := by
  simp [run, take, Clock.draw]

/-- The stamps were returned in their order, and none is ahead of the clock. -/
structure IsInOrder (c : Callers) : Prop where
  increasing : c.returned.Pairwise (· < ·)
  reached : ∀ stamp ∈ c.returned, stamp ≤ c.clock.last

theorem IsInOrder.take (h : c.IsInOrder) (hr : c.clock.last < Int64.maxValue) (turn : Turn) :
    (c.take turn).IsInOrder := by
  cases turn with
  | ask caller millis =>
    simp only [Callers.take]
    split
    · exact h
    · exact ⟨h.increasing, h.reached⟩
  | answer caller =>
    simp only [Callers.take]
    split
    · exact h
    · rename_i other candidate hf
      have hlast := Clock.lt_raised candidate hr
      have hbelow : ∀ stamp ∈ c.returned, stamp < max candidate (c.clock.last + 1) :=
        fun stamp hm => Int64.lt_of_le_of_lt (h.reached stamp hm) hlast
      refine ⟨List.pairwise_append.mpr ⟨h.increasing, List.pairwise_singleton _ _,
        fun stamp hm other ho => List.mem_singleton.mp ho ▸ hbelow stamp hm⟩, ?_⟩
      refine List.forall_mem_append.mpr ⟨fun stamp hm => Int64.le_of_lt (hbelow stamp hm), ?_⟩
      rw [List.forall_mem_singleton]
      exact Int64.le_refl _

/-- However the callers come between one another, the stamps returned increase, so none is returned
twice, as long as no turn finds the greatest stamp drawn. -/
theorem IsInOrder.run (h : c.IsInOrder)
    (hr : ∀ front turn back, turns = front ++ turn :: back →
      (c.run front).clock.last < Int64.maxValue) : (c.run turns).IsInOrder := by
  induction turns generalizing c with
  | nil => exact h
  | cons turn turns ih =>
    refine ih (h.take (hr [] turn turns rfl) turn) fun front other back hs => ?_
    exact hr (turn :: front) other back (by rw [hs]; rfl)

/-- The caller that asked first is answered last. -/
example : ((⟨{}, [], []⟩ : Callers).run [.ask 1 5, .ask 2 5, .ask 3 4, .answer 3, .answer 2,
    .answer 1]).returned = [4000002, 5000001, 5000002] := by decide

end Callers

end TableStore

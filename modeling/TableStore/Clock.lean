import TableStore.Version

/-! The clock that stamps writes. Each stamp is the wall clock's millisecond times a million
plus a tick that runs through a million values, raised if need be above the last stamp, so
stamps strictly increase even when the wall clock stalls or steps back. -/

namespace TableStore

/-- Ticks within a millisecond. -/
def ticksPerMilli : Int64 := 1000000

/-- The number of stamps drawn so far and the last of them. -/
structure Clock where
  drawn : UInt64 := 0
  last : Stamp := 0
  deriving DecidableEq

namespace Clock

/-- A product that stops at the greatest stamp instead of passing it. -/
def saturatingTicks (millis : Int64) : Int64 :=
  if Int64.maxValue.toInt < millis.toInt * ticksPerMilli.toInt then Int64.maxValue
  else millis * ticksPerMilli

/-- Counts a draw, and tells its tick. -/
def count (clock : Clock) : Int64 × Clock :=
  ((clock.drawn % 1000000).toInt64, { clock with drawn := clock.drawn + 1 })

/-- The stamp that a draw asks for at a wall clock reading; a reading before the epoch counts as
the epoch. -/
def candidate (millis tick : Int64) : Stamp := saturatingTicks (max millis 0) + tick

/-- Raises the last stamp to a candidate, or by one if that is more, and tells what it was. -/
def raise (clock : Clock) (candidate : Stamp) : Stamp × Clock :=
  (clock.last, { clock with last := max candidate (clock.last + 1) })

/-- Draws the next stamp at a wall clock reading. It is worked out from what the last stamp was,
apart from what is kept as the last one from then on. -/
def draw (clock : Clock) (millis : Int64) : Stamp × Clock :=
  let (tick, counted) := clock.count
  let candidate := candidate millis tick
  let (previous, next) := counted.raise candidate
  (max candidate (previous + 1), next)

/-- The stamps drawn at successive readings. -/
def drawAll (clock : Clock) : List Int64 → List Stamp
  | [] => []
  | millis :: rest =>
    let (stamp, next) := clock.draw millis
    stamp :: next.drawAll rest

end Clock

end TableStore

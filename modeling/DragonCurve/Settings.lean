/-! The settings of a computation: when an expansion is cut off, which depths
are walked cyclically, which depth a budget asks for, and which moves are
recorded as waypoints. -/

namespace DragonCurve

/-- Settings with their standard values. -/
structure Settings where
  /-- The cutoff trips at the first round that is longer than this. -/
  cutoffLength : Nat := 100000
  /-- The cutoff never trips at a round numbered from this one on. -/
  cutoffRoundLimit : Nat := 15
  /-- Depths from this one on are capped and walked cyclically. -/
  loopThresholdDepth : Nat := 20
  /-- The cap on the depth of a cyclic walk. -/
  practicalDepthCap : Nat := 25
  /-- The largest budget that counts as small. -/
  smallBudgetLimit : Nat := 100
  /-- The depth for a small budget. -/
  smallBudgetDepth : Nat := 15
  /-- The depth for every other budget. -/
  fullDepth : Nat := 50
  /-- Moves up to this one are all recorded. -/
  traceHead : Nat := 20
  /-- In a cyclic walk, multiples of this are recorded; zero records none. -/
  traceInterval : Nat := 100
  deriving DecidableEq, Repr

namespace Settings

def standard : Settings := {}

/-- Does `round`, of the given length, trip the cutoff? -/
def cutsOff (c : Settings) (round length : Nat) : Bool :=
  round < c.cutoffRoundLimit && c.cutoffLength < length

/-- Is move number `step` of a walk with this budget recorded? -/
def records (c : Settings) (budget : Nat) (looped : Bool) (step : Nat) : Bool :=
  step ≤ c.traceHead || step == budget ||
    (looped && c.traceInterval != 0 && step % c.traceInterval == 0)

end Settings

end DragonCurve

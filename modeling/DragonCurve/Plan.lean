import DragonCurve.Settings

/-! Plans: which depth to expand for a requested depth or a budget of moves,
and whether to walk it round and round. A round doubles the sequence, so a
great depth is capped and its expansion is walked cyclically in its place. -/

namespace DragonCurve

/-- How a depth is to be walked. -/
structure Plan where
  /-- The depth that the walk stands for. -/
  requestedDepth : Nat
  /-- The depth to expand to. -/
  expansionDepth : Nat
  looped : Bool
  deriving DecidableEq, Repr

namespace Settings

/-- Small budgets get the small depth and all others the full one. -/
def effectiveDepth (c : Settings) (budget : Nat) : Nat :=
  if budget ≤ c.smallBudgetLimit then c.smallBudgetDepth else c.fullDepth

end Settings

namespace Plan

/-- Depths from the threshold on are capped and walked cyclically. -/
def forDepth (c : Settings) (depth : Nat) : Plan :=
  if c.loopThresholdDepth ≤ depth then ⟨depth, min depth c.practicalDepthCap, true⟩
  else ⟨depth, depth, false⟩

def forBudget (c : Settings) (budget : Nat) : Plan := forDepth c (c.effectiveDepth budget)

end Plan

end DragonCurve

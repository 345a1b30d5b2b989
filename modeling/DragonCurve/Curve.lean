import DragonCurve.Expansion
import DragonCurve.Plan
import DragonCurve.Report

/-! The curve of a depth or of a budget. The seed is expanded as planned and
the expansion is walked; the report names both the depth asked for and the
depth that was walked. -/

namespace DragonCurve

/-- Expands the seed as planned for `depth` and walks at most `budget` moves. -/
def walkDepth (c : Settings) (depth budget : Nat) : Logged (Except Fault Report) := do
  let plan := Plan.forDepth c depth
  let e ← expand c plan.expansionDepth
  Logged.report (.walking depth e.depthReached e.sequence.length plan.looped budget)
  match ← e.sequence.walk c budget plan.looped with
  | .error f => pure (.error f)
  | .ok r =>
    Logged.report (.finished r.finalPosition.x r.finalPosition.y r.totalSteps)
    pure (.ok { r with requestedDepth := some depth, expandedDepth := some e.depthReached })

/-- Walks `budget` moves at the depth that suits the budget. -/
def walkBudget (c : Settings) (budget : Nat) : Logged (Except Fault Report) :=
  if budget = 0 then pure (.error .emptyBudget)
  else do
    Logged.report (.computing budget (c.effectiveDepth budget))
    walkDepth c (c.effectiveDepth budget) budget

end DragonCurve

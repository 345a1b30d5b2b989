/-! The faults that end a computation, with their wording. The cutoff and the
cyclic walk are no faults: they always give a result. -/

namespace DragonCurve

/-- Why a computation gives no result. -/
inductive Fault where
  /-- A walk was asked for with a budget of zero. -/
  | emptyBudget
  /-- No room for the symbols of a round. -/
  | allocation (round symbols : Nat)
  /-- A sequence could not be turned into modules. -/
  | conversion (detail : String)
  /-- A move left the grid. -/
  | overflow
  deriving DecidableEq, Repr

def Fault.message : Fault → String
  | emptyBudget => "step budget must be greater than zero"
  | allocation round symbols =>
    "could not allocate " ++ toString symbols ++ " symbols for round " ++ toString round
  | conversion detail => "symbios error: " ++ detail
  | overflow => "attempt to add with overflow"

end DragonCurve

import DragonCurve.Sequence
import DragonCurve.Walk

/-! Reports of finished walks, and the walk over a sequence. Every symbol of a
sequence is an action of the turtle, so a sequence can be walked as it is. -/

namespace DragonCurve

/-- What is known of a walk at its end. -/
structure Report where
  finalPosition : Point
  /-- The number of moves made. -/
  totalSteps : Nat
  /-- The recorded moves, in order. -/
  waypoints : List Waypoint
  /-- The length of what was walked, counted once also for a cyclic walk. -/
  sequenceLength : Nat
  looped : Bool
  /-- The depth asked for, where a depth was. -/
  requestedDepth : Option Nat := none
  /-- The depth that was walked, where a depth was asked for. -/
  expandedDepth : Option Nat := none
  deriving DecidableEq, Repr

/-- The report of a walk over something of the given length. -/
def Walk.report (w : Walk) (length : Nat) (looped : Bool) : Report where
  finalPosition := w.turtle.position
  totalSteps := w.steps
  waypoints := w.waypoints.toList
  sequenceLength := length
  looped := looped

namespace Sequence

def actions (s : Sequence) : List Action := s.symbols.map Symbol.action

/-- Walks the sequence from home, once or round and round, for at most `budget`
moves. -/
def walk (c : Settings) (s : Sequence) (budget : Nat) (looped : Bool) :
    Logged (Except Fault Report) := do
  let outcome ← Walk.run c s.actions budget looped
  pure (outcome.map (·.report s.length looped))

end Sequence

end DragonCurve

import DragonCurve.Fault
import DragonCurve.Heading
import DragonCurve.Symbol

/-! The turtle on the grid. It has a position and a heading; a move goes one
unit ahead and faults when that leaves the range of coordinates, and a turn
only changes the heading. -/

namespace DragonCurve

/-- What the turtle can be told to do. -/
inductive Action where
  | forward
  | turnLeft
  | turnRight
  | ignore
  deriving DecidableEq, Repr

/-- Growing letters and characters outside the alphabet do nothing. -/
def Symbol.action : Symbol → Action
  | .forward => .forward
  | .left => .turnLeft
  | .right => .turnRight
  | .a | .b | .other _ => .ignore

/-- The state of the turtle. -/
structure Turtle where
  position : Point
  heading : Heading
  deriving DecidableEq, Repr

namespace Turtle

/-- At the origin, facing north. -/
def home : Turtle := ⟨.origin, .north⟩

/-- The point one unit ahead. -/
@[inline] def ahead (t : Turtle) : Point := t.position + t.heading.vector

/-- Moves one unit ahead. -/
@[inline] def forward (t : Turtle) : Except Fault Turtle :=
  if t.ahead.InRange then .ok { t with position := t.ahead } else .error .overflow

def turnLeft (t : Turtle) : Turtle := { t with heading := t.heading.turnLeft }

def turnRight (t : Turtle) : Turtle := { t with heading := t.heading.turnRight }

/-- Carries out an action and says whether the turtle moved. -/
@[inline] def apply (t : Turtle) : Action → Except Fault (Turtle × Bool)
  | .forward => t.forward.map (·, true)
  | .turnLeft => .ok (t.turnLeft, false)
  | .turnRight => .ok (t.turnRight, false)
  | .ignore => .ok (t, false)

end Turtle

end DragonCurve

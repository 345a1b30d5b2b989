import DragonCurve.Logged
import DragonCurve.Settings
import DragonCurve.Turtle

/-! Walks. The turtle starts at home and carries out a list of actions until a
budget of moves is spent, once or round and round. The budget is read before
each action, so turns after the last move it pays for are not made. Chosen
moves are recorded as waypoints. A cyclic walk keeps its turtle from pass to
pass; it is given up when a whole pass makes no move, and otherwise every pass
brings the number of moves closer to the budget. -/

namespace DragonCurve

/-- A move that was recorded. -/
structure Waypoint where
  /-- The number of the move, counted from one. -/
  stepIndex : Nat
  /-- Where the move led. -/
  position : Point
  /-- The heading in which it was made. -/
  heading : Heading
  deriving DecidableEq, Repr

/-- The state of a walk. -/
structure Walk where
  turtle : Turtle
  /-- The number of moves made. -/
  steps : Nat
  waypoints : Array Waypoint
  deriving DecidableEq, Repr

namespace Walk

def start : Walk := ⟨.home, 0, #[]⟩

/-- Counts a move that brought the turtle to `t`, and records it if `sampled`
picks its number. -/
@[inline] def moved (sampled : Nat → Bool) (w : Walk) (t : Turtle) : Walk :=
  ⟨t, w.steps + 1,
    if sampled (w.steps + 1) then w.waypoints.push ⟨w.steps + 1, t.position, t.heading⟩
    else w.waypoints⟩

/-- Carries out one action. -/
@[inline] def step (sampled : Nat → Bool) (w : Walk) (a : Action) : Except Fault Walk :=
  match w.turtle.apply a with
  | .error f => .error f
  | .ok (t, true) => .ok (w.moved sampled t)
  | .ok (t, false) => .ok { w with turtle := t }

/-- Carries out actions in order while the budget lasts. -/
@[specialize] def pass (sampled : Nat → Bool) (budget : Nat) :
    List Action → Walk → Except Fault Walk
  | [], w => .ok w
  | a :: as, w =>
    if budget ≤ w.steps then .ok w
    else match w.step sampled a with
      | .error f => .error f
      | .ok next => pass sampled budget as next

/-- Passes over the actions until the budget is spent or a pass makes no move. -/
@[specialize] def cycle (sampled : Nat → Bool) (budget : Nat) (actions : List Action) (w : Walk) :
    Logged (Except Fault Walk) :=
  -- read before the pass, which can then update the walk in place
  let before := w.steps
  match w.pass sampled budget actions with
  | .error f => pure (.error f)
  | .ok next =>
    if budget ≤ next.steps then pure (.ok next)
    else if before < next.steps then cycle sampled budget actions next
    else do
      Logged.report (.abandoned budget)
      pure (.ok next)
termination_by budget - w.steps

/-- Walks from home, once or round and round. -/
def run (c : Settings) (actions : List Action) (budget : Nat) (looped : Bool) :
    Logged (Except Fault Walk) :=
  if looped then start.cycle (c.records budget true) budget actions
  else pure (start.pass (c.records budget false) budget actions)

end Walk

end DragonCurve

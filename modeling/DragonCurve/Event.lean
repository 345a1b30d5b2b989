import DragonCurve.Json

/-! The events that a computation reports, and their written form: a level, a
message and named values. -/

namespace DragonCurve

/-- How much an event matters. -/
inductive Level where
  | debug
  | info
  | warn
  deriving DecidableEq, Repr

def Level.name : Level → String
  | debug => "DEBUG"
  | info => "INFO"
  | warn => "WARN"

/-- Something worth reporting. -/
inductive Event where
  /-- A round of the expansion, with its text. -/
  | roundText (round : Nat) (text : String)
  /-- A round of the expansion, with its length only. -/
  | roundLength (round length : Nat)
  /-- The cutoff stopped an expansion that was to reach depth `requested`. -/
  | cutoff (round length requested : Nat)
  /-- A budget has been given its depth. -/
  | computing (budget depth : Nat)
  /-- An expansion is about to be walked. -/
  | walking (requested expanded length : Nat) (looped : Bool) (budget : Nat)
  /-- A cyclic walk was given up because a whole pass made no move. -/
  | abandoned (budget : Nat)
  /-- A walk has ended. -/
  | finished (x y : Int) (steps : Nat)
  deriving DecidableEq, Repr

namespace Event

def level : Event → Level
  | roundText .. | roundLength .. | finished .. => .debug
  | computing .. | walking .. => .info
  | cutoff .. | abandoned .. => .warn

def message : Event → String
  | roundText .. | roundLength .. => "dragon round"
  | cutoff .. => "sequence exceeded the safety cutoff, stopping early"
  | computing .. => "computing dragon path"
  | walking .. => "walking dragon sequence"
  | abandoned .. => "sequence has no forward moves, abandoning looped walk"
  | finished .. => "dragon walk finished"

/-- The named values of an event, its message apart. -/
def fields : Event → List (String × Json)
  | roundText round text => [("round", .int round), ("sequence", .str text)]
  | roundLength round length => [("round", .int round), ("length", .int length)]
  | cutoff round length requested =>
    [("round", .int round), ("length", .int length), ("requested", .int requested)]
  | computing budget depth => [("step_budget", .int budget), ("depth", .int depth)]
  | walking requested expanded length looped budget =>
    [("requested_depth", .int requested), ("expanded_depth", .int expanded),
      ("length", .int length), ("looped", .bool looped), ("step_budget", .int budget)]
  | abandoned budget => [("step_budget", .int budget)]
  | finished x y steps => [("x", .int x), ("y", .int y), ("total_steps", .int steps)]

def toJson (e : Event) : Json :=
  .obj [("level", .str e.level.name), ("fields", .obj (("message", .str e.message) :: e.fields))]

end Event

end DragonCurve

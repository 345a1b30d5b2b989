import DragonCurve.Json
import DragonCurve.Plan
import DragonCurve.Report

/-! The written forms of settings, plans, turtles, waypoints and reports. Each
is a record whose fields have a declared order; it is written as an object, and
the array of its values in that order reads the same. Numbers are read within
the range of their field: 64 bits for counts and lengths, 32 bits for depths
and rounds, and 32 bits in two's complement for coordinates. -/

namespace DragonCurve

namespace Point

/-- A point is written as the array of its coordinates. -/
def toJson (p : Point) : Json := .arr [.int p.x, .int p.y]

def ofJson? : Json → Option Point
  | .arr [x, y] => do pure ⟨← x.int? 32, ← y.int? 32⟩
  | _ => none

end Point

namespace Heading

def toJson (h : Heading) : Json := .str h.name

/-- A heading is read from its name, alone or as the only key of an object
with the value `null`. -/
def ofJson? : Json → Option Heading
  | .str s => ofName? s
  | .obj [(s, .null)] => ofName? s
  | _ => none

end Heading

namespace Turtle

def fieldNames : List String := ["position", "direction"]

def fieldValues (t : Turtle) : List Json := [t.position.toJson, t.heading.toJson]

def toJson (t : Turtle) : Json := .record fieldNames t.fieldValues

def ofJson? (j : Json) : Option Turtle := do
  let fields ← j.record? fieldNames fieldNames.length
  pure {
    position := ← required? fields "position" Point.ofJson?
    heading := ← required? fields "direction" Heading.ofJson? }

end Turtle

namespace Waypoint

def fieldNames : List String := ["step_index", "position", "direction"]

def fieldValues (p : Waypoint) : List Json :=
  [.int p.stepIndex, p.position.toJson, p.heading.toJson]

def toJson (p : Waypoint) : Json := .record fieldNames p.fieldValues

def ofJson? (j : Json) : Option Waypoint := do
  let fields ← j.record? fieldNames fieldNames.length
  pure {
    stepIndex := ← required? fields "step_index" (Json.nat? 64)
    position := ← required? fields "position" Point.ofJson?
    heading := ← required? fields "direction" Heading.ofJson? }

end Waypoint

namespace Plan

def fieldNames : List String := ["requested_depth", "expansion_depth", "looped"]

def fieldValues (p : Plan) : List Json :=
  [.int p.requestedDepth, .int p.expansionDepth, .bool p.looped]

def toJson (p : Plan) : Json := .record fieldNames p.fieldValues

def ofJson? (j : Json) : Option Plan := do
  let fields ← j.record? fieldNames fieldNames.length
  pure {
    requestedDepth := ← required? fields "requested_depth" (Json.nat? 32)
    expansionDepth := ← required? fields "expansion_depth" (Json.nat? 32)
    looped := ← required? fields "looped" Json.bool? }

end Plan

namespace Report

def fieldNames : List String :=
  ["final_position", "total_steps", "path_steps", "sequence_length_used", "looped",
    "requested_depth", "expanded_depth"]

def fieldValues (r : Report) : List Json :=
  [r.finalPosition.toJson, .int r.totalSteps, .arr (r.waypoints.map Waypoint.toJson),
    .int r.sequenceLength, .bool r.looped, .ofOption (fun d => .int d) r.requestedDepth,
    .ofOption (fun d => .int d) r.expandedDepth]

def toJson (r : Report) : Json := .record fieldNames r.fieldValues

/-- The array form has all fields; in the object form either depth may be left
out, which says the same as `null`. -/
def ofJson? (j : Json) : Option Report := do
  let fields ← j.record? fieldNames fieldNames.length
  pure {
    finalPosition := ← required? fields "final_position" Point.ofJson?
    totalSteps := ← required? fields "total_steps" (Json.nat? 64)
    waypoints := ← required? fields "path_steps" (Json.list? Waypoint.ofJson?)
    sequenceLength := ← required? fields "sequence_length_used" (Json.nat? 64)
    looped := ← required? fields "looped" Json.bool?
    requestedDepth := ← optional? fields "requested_depth" (Json.nullable? (Json.nat? 32)) none
    expandedDepth := ← optional? fields "expanded_depth" (Json.nullable? (Json.nat? 32)) none }

end Report

namespace Settings

def fieldNames : List String :=
  ["cutoff_length", "cutoff_round_limit", "loop_threshold_depth", "practical_depth_cap",
    "small_budget_limit", "small_budget_depth", "full_depth", "trace_head", "trace_interval"]

def fieldValues (c : Settings) : List Json :=
  [.int c.cutoffLength, .int c.cutoffRoundLimit, .int c.loopThresholdDepth,
    .int c.practicalDepthCap, .int c.smallBudgetLimit, .int c.smallBudgetDepth, .int c.fullDepth,
    .int c.traceHead, .int c.traceInterval]

def toJson (c : Settings) : Json := .record fieldNames c.fieldValues

/-- A setting that is not given keeps its standard value, so an array may also
be too short. -/
def ofJson? (j : Json) : Option Settings := do
  let fields ← j.record? fieldNames 0
  pure {
    cutoffLength := ← optional? fields "cutoff_length" (Json.nat? 64) standard.cutoffLength
    cutoffRoundLimit :=
      ← optional? fields "cutoff_round_limit" (Json.nat? 32) standard.cutoffRoundLimit
    loopThresholdDepth :=
      ← optional? fields "loop_threshold_depth" (Json.nat? 32) standard.loopThresholdDepth
    practicalDepthCap :=
      ← optional? fields "practical_depth_cap" (Json.nat? 32) standard.practicalDepthCap
    smallBudgetLimit :=
      ← optional? fields "small_budget_limit" (Json.nat? 64) standard.smallBudgetLimit
    smallBudgetDepth :=
      ← optional? fields "small_budget_depth" (Json.nat? 32) standard.smallBudgetDepth
    fullDepth := ← optional? fields "full_depth" (Json.nat? 32) standard.fullDepth
    traceHead := ← optional? fields "trace_head" (Json.nat? 64) standard.traceHead
    traceInterval := ← optional? fields "trace_interval" (Json.nat? 64) standard.traceInterval }

end Settings

end DragonCurve

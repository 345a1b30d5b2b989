import DragonCurve.Logged
import DragonCurve.Sequence
import DragonCurve.Settings

/-! Expansion of the seed. One round follows another until the requested depth
is reached or the cutoff trips, whichever comes first; so the depth reached has
to be read from the result. Early rounds are reported with their text, the next
ones with their length, and later ones not at all. -/

namespace DragonCurve

/-- The outcome of an expansion. -/
structure Expansion where
  /-- The sequence after the last round. -/
  sequence : Sequence
  requestedDepth : Nat
  /-- The number of the last round. -/
  depthReached : Nat
  /-- The length after each round, the seed's first. -/
  roundLengths : List Nat
  deriving DecidableEq, Repr

namespace Expansion

/-- Did the expansion stop short of the requested depth? A cutoff at the very
last round does not count. -/
def truncated (e : Expansion) : Bool := e.depthReached < e.requestedDepth

/-- The last round that is reported with its text. -/
def lastTextRound : Nat := 5

/-- The last round that is reported at all. -/
def lastReportedRound : Nat := 10

/-- What is reported of a round. -/
def roundEvents (round : Nat) (s : Sequence) : List Event :=
  if round ≤ lastTextRound then [.roundText round s.text]
  else if round ≤ lastReportedRound then [.roundLength round s.length]
  else []

/-- Carries `s`, the sequence of round `round`, up to `n` rounds further. -/
def grow (c : Settings) (requested : Nat) : Nat → Nat → Sequence → Logged Expansion
  | 0, round, s => pure ⟨s, requested, round, [s.length]⟩
  | n + 1, round, s => do
    let next := s.next
    Logged.reportAll (roundEvents (round + 1) next)
    if c.cutsOff (round + 1) next.length then
      Logged.report (.cutoff (round + 1) next.length requested)
      pure ⟨next, requested, round + 1, [s.length, next.length]⟩
    else
      let e ← grow c requested n (round + 1) next
      pure { e with roundLengths := s.length :: e.roundLengths }

end Expansion

/-- Expands the seed to `depth` under the cutoff of the settings. -/
def expand (c : Settings) (depth : Nat) : Logged Expansion := do
  Logged.reportAll (Expansion.roundEvents 0 .seed)
  Expansion.grow c depth depth 0 .seed

end DragonCurve

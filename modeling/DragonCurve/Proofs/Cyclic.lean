import DragonCurve.Proofs.ClosedForm

/-! Cyclic walks of a depth. Depths from the threshold on are capped and walked
round and round. An expansion with a round has a closed orbit, so it takes every
budget without leaving the range of coordinates. The bare seed does not turn: it
is walked straight to the north, and move `2 ^ 31` leaves the range. It is walked
when the depth or its cap is zero. -/

namespace DragonCurve

/-! ### Straight ahead -/

/-- The route to the north. -/
def Route.straight : Route := fun _ => 0

theorem Route.place_straight (k : ℕ) : straight.place k = ⟨0, k⟩ := by
  induction k with
  | zero => rfl
  | succ k ih =>
    rw [place_succ, ih]
    ext <;> simp [heading, straight, Heading.vector]

theorem Route.safe_straight {n : ℕ} : straight.Safe n ↔ n < 2 ^ 31 := by
  simp only [Safe, place_straight, Point.InRange]
  constructor
  · intro h
    have := h n le_rfl
    omega
  · intro h k hk
    omega

theorem route_seed : route Sequence.seed.actions = .straight := by
  funext k
  have hactions : Sequence.seed.actions = [.forward, .ignore] := by decide
  simp [route, hactions, Route.straight, turning, Action.turning, bearings, Nat.mod_one]

/-- Round and round over the bare seed, the turtle leaves the range with move
`2 ^ 31`. -/
theorem Sequence.walk_seed_looped (c : Settings) (b : ℕ) :
    (seed.walk c b true).value =
      if b < 2 ^ 31 then .ok (seed.survey c b true) else .error .overflow := by
  have hn := moveCount_rounds_seed 0 b true
  rw [rounds_zero, if_pos rfl] at hn
  rw [walk_eq, hn, route_seed]
  simp only [Route.safe_straight]

/-! ### Walks of a depth -/

/-- Where nothing is expanded, the bare seed is walked. -/
theorem walkDepth_of_seed {c : Settings} {d : ℕ} (hd : c.loopThresholdDepth ≤ d)
    (h0 : min d c.practicalDepthCap = 0) (b : ℕ) :
    (walkDepth c d b).value = (Sequence.seed.walk c b true).value.map fun s =>
      { s with requestedDepth := some d, expandedDepth := some 0 } :=
  walkDepth_eq_of_ge hd (h0 ▸ c.endsAt_zero) b

/-- A cyclic walk of a depth takes every budget without leaving the range,
except over the bare seed: there the range ends with move `2 ^ 31`. -/
theorem walkDepth_cyclic {c : Settings} {d : ℕ} (hcap : c.practicalDepthCap ≤ 59)
    (hd : c.loopThresholdDepth ≤ d) (b : ℕ) :
    (0 < min d c.practicalDepthCap ∨ b < 2 ^ 31 →
      ∃ r, (walkDepth c d b).value = .ok r ∧ r.totalSteps = b) ∧
    (min d c.practicalDepthCap = 0 ∧ 2 ^ 31 ≤ b →
      (walkDepth c d b).value = .error .overflow) := by
  rcases Nat.eq_zero_or_pos (min d c.practicalDepthCap) with h0 | hpos
  · rw [walkDepth_of_seed hd h0, Sequence.walk_seed_looped]
    constructor
    · rintro (hpos | hb)
      · omega
      · rw [if_pos hb]
        exact ⟨_, rfl, (Sequence.survey_literal c 0 b true).2⟩
    · rintro ⟨-, hb⟩
      rw [if_neg (by omega)]
      rfl
  · have he := expand_endsAt c (min d c.practicalDepthCap)
    have hle := he.le
    exact ⟨fun _ => ⟨_, walkDepth_of_ge hd he (he.pos hpos) (by omega) b, rfl⟩,
      fun h => by omega⟩

/-- The largest budget of 64 bits, walked at depth 50. -/
theorem walkDepth_cyclic_fifty :
    let c := Settings.standard
    let b := 2 ^ 64 - 1
    (c.practicalDepthCap ≤ 59 ∧ c.loopThresholdDepth ≤ 50) ∧
      (0 < min 50 c.practicalDepthCap ∨ b < 2 ^ 31 →
        ∃ r, (walkDepth c 50 b).value = .ok r ∧ r.totalSteps = b) ∧
      (min 50 c.practicalDepthCap = 0 ∧ 2 ^ 31 ≤ b →
        (walkDepth c 50 b).value = .error .overflow) := by
  intro c b
  exact ⟨⟨by decide, by decide⟩, walkDepth_cyclic (by decide) (by decide) b⟩

/-- With a cap of zero, a budget of `2 ^ 31` moves ends in a fault. -/
theorem walkDepth_overflow_of_cap_zero :
    let c : Settings := { practicalDepthCap := 0, traceHead := 0, traceInterval := 0 }
    (c.practicalDepthCap ≤ 59 ∧ c.loopThresholdDepth ≤ 20 ∧ 2 ^ 31 ≤ 2 ^ 64 - 1) ∧
      (walkDepth c 20 (2 ^ 31)).value = .error .overflow := by
  intro c
  refine ⟨by decide, ?_⟩
  rw [walkDepth_of_seed (by decide) (by decide), Sequence.walk_seed_looped, if_neg (by omega)]
  rfl

end DragonCurve

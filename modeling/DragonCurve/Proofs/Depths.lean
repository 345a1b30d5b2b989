import DragonCurve.Curve
import DragonCurve.Proofs.Folding
import DragonCurve.Proofs.Following

/-! Walks of a depth. Such a walk is the survey of some number of rounds of the
seed, once or round and round, with the depth asked for and the depth reached
noted. While the budget fits in one pass over the expansion, the survey is that
of the dragon itself; so it depends neither on the depth nor on the settings,
which decide only what is recorded. -/

namespace DragonCurve

/-- A mapped outcome is a result exactly when the outcome is one. -/
theorem map_eq_ok_iff {α β : Type} {x : Except Fault α} {f : α → β} {b : β} :
    x.map f = .ok b ↔ ∃ a, x = .ok a ∧ f a = b := by
  cases x <;> simp [Except.map]

theorem walkDepth_value (c : Settings) (depth budget : ℕ) :
    (walkDepth c depth budget).value =
      let plan := Plan.forDepth c depth
      let e := (expand c plan.expansionDepth).value
      (e.sequence.walk c budget plan.looped).value.map fun r =>
        { r with requestedDepth := some depth, expandedDepth := some e.depthReached } := by
  simp only [walkDepth, Logged.value_bind]
  split
  next h => rw [h]; rfl
  next h => rw [h]; rfl

theorem eq_survey_of_walkDepth {c : Settings} {depth budget : ℕ} {r : Report}
    (h : (walkDepth c depth budget).value = .ok r) :
    ∃ e looped, r = { (Sequence.seed.rounds e).survey c budget looped with
      requestedDepth := some depth, expandedDepth := some e } := by
  rw [walkDepth_value] at h
  obtain ⟨s, hw, rfl⟩ := map_eq_ok_iff.mp h
  have hs := Sequence.eq_survey_of_walk hw
  rw [expand_sequence] at hs
  exact ⟨_, _, by rw [← hs]⟩

/-- Once over the expanded seed a budget pays for at most `2 ^ e` moves, round
and round for as many as it has. -/
theorem Sequence.moveCount_rounds_seed (e budget : ℕ) (looped : Bool) :
    Walk.moveCount (seed.rounds e).actions budget looped =
      if looped then budget else min budget (2 ^ e) := by
  simp [Walk.moveCount, count_rounds_seed]

/-- While the budget fits in one pass, a survey is that of the dragon. -/
theorem Sequence.survey_rounds_seed (c : Settings) {e budget : ℕ} (h : budget ≤ 2 ^ e)
    (looped : Bool) :
    ((seed.rounds e).survey c budget looped).totalSteps = budget ∧
      ((seed.rounds e).survey c budget looped).finalPosition = Route.place dragon budget ∧
      ((seed.rounds e).survey c budget looped).waypoints =
        Route.waypoints dragon (c.records budget looped) budget := by
  have hn : Walk.moveCount (seed.rounds e).actions budget looped = budget := by
    rw [moveCount_rounds_seed, Nat.min_eq_left h, ite_self]
  have hroute : ∀ k < budget, route (seed.rounds e).actions k = dragon k :=
    fun k hk => route_rounds_seed (hk.trans_le h)
  simp only [survey, hn]
  exact ⟨trivial, Route.place_congr hroute _ le_rfl, Route.waypoints_congr hroute _⟩

/-- Two walks of any depths under any settings agree as long as the budget fits
in one pass over both expansions: both spend it, end at the same place, and
record the same at every move that both record. -/
theorem walkDepth_agree {c₁ c₂ : Settings} {d₁ d₂ budget e₁ e₂ : ℕ} {r₁ r₂ : Report}
    (h₁ : (walkDepth c₁ d₁ budget).value = .ok r₁) (h₂ : (walkDepth c₂ d₂ budget).value = .ok r₂)
    (he₁ : r₁.expandedDepth = some e₁) (he₂ : r₂.expandedDepth = some e₂)
    (hb : budget ≤ 2 ^ min e₁ e₂) :
    r₁.totalSteps = budget ∧ r₂.totalSteps = budget ∧ r₁.finalPosition = r₂.finalPosition ∧
      ∀ w₁ ∈ r₁.waypoints, ∀ w₂ ∈ r₂.waypoints, w₁.stepIndex = w₂.stepIndex → w₁ = w₂ := by
  obtain ⟨e₁', looped₁, rfl⟩ := eq_survey_of_walkDepth h₁
  obtain ⟨e₂', looped₂, rfl⟩ := eq_survey_of_walkDepth h₂
  obtain rfl : e₁' = e₁ := Option.some.inj he₁
  obtain rfl : e₂' = e₂ := Option.some.inj he₂
  have hpow₁ : 2 ^ min e₁' e₂' ≤ 2 ^ e₁' := Nat.pow_le_pow_right (by omega) (Nat.min_le_left _ _)
  have hpow₂ : 2 ^ min e₁' e₂' ≤ 2 ^ e₂' := Nat.pow_le_pow_right (by omega) (Nat.min_le_right _ _)
  obtain ⟨ht₁, hp₁, hw₁⟩ := Sequence.survey_rounds_seed c₁ (hb.trans hpow₁) looped₁
  obtain ⟨ht₂, hp₂, hw₂⟩ := Sequence.survey_rounds_seed c₂ (hb.trans hpow₂) looped₂
  refine ⟨ht₁, ht₂, hp₁.trans hp₂.symm, ?_⟩
  intro w₁ m₁ w₂ m₂ hi
  rw [hw₁] at m₁
  rw [hw₂] at m₂
  obtain ⟨k₁, -, rfl⟩ := Route.mem_waypoints m₁
  obtain ⟨k₂, -, rfl⟩ := Route.mem_waypoints m₂
  obtain rfl : k₁ = k₂ := Nat.succ.inj hi
  rfl

/-- A walk once over three rounds agrees with one round and round over two that
stands for depth five and records every second move. -/
theorem walkDepth_agree_four :
    let c : Settings :=
      { loopThresholdDepth := 1, practicalDepthCap := 2, traceHead := 0, traceInterval := 2 }
    let r₁ : Report :=
      { finalPosition := ⟨2, 0⟩, totalSteps := 4, sequenceLength := 30, looped := false,
        waypoints := [⟨1, ⟨0, 1⟩, .north⟩, ⟨2, ⟨1, 1⟩, .east⟩, ⟨3, ⟨1, 0⟩, .south⟩,
          ⟨4, ⟨2, 0⟩, .east⟩],
        requestedDepth := some 3, expandedDepth := some 3 }
    let r₂ : Report :=
      { finalPosition := ⟨2, 0⟩, totalSteps := 4, sequenceLength := 14, looped := true,
        waypoints := [⟨2, ⟨1, 1⟩, .east⟩, ⟨4, ⟨2, 0⟩, .east⟩],
        requestedDepth := some 5, expandedDepth := some 2 }
    ((walkDepth .standard 3 4).value = .ok r₁ ∧ (walkDepth c 5 4).value = .ok r₂ ∧
      r₁.expandedDepth = some 3 ∧ r₂.expandedDepth = some 2 ∧ 4 ≤ 2 ^ min 3 2) ∧
      r₁.totalSteps = 4 ∧ r₂.totalSteps = 4 ∧ r₁.finalPosition = r₂.finalPosition ∧
        ∀ w₁ ∈ r₁.waypoints, ∀ w₂ ∈ r₂.waypoints, w₁.stepIndex = w₂.stepIndex → w₁ = w₂ := by
  intro c r₁ r₂
  have h₁ : (walkDepth .standard 3 4).value = .ok r₁ := by decide +kernel
  have h₂ : (walkDepth c 5 4).value = .ok r₂ := by decide +kernel
  exact ⟨⟨h₁, h₂, rfl, rfl, by decide⟩, walkDepth_agree h₁ h₂ rfl rfl (by decide)⟩

end DragonCurve

import DragonCurve.Proofs.ClosedForm
import DragonCurve.Proofs.Sampling

/-! Budgets under the standard settings. The cutoff never trips, so a budget of at
most 100 is walked once over 15 rounds and every other round and round over 25.
The report of either is exact: the whole budget is spent, the place is the
dragon's while the budget fits in a pass over 25 rounds and that of its closed
orbit from then on, and the records are counted by the budget. -/

namespace DragonCurve

variable {b : ℕ}

/-- The report of a small budget. -/
theorem walkBudget_standard_of_le (h1 : 1 ≤ b) (h : b ≤ 100) :
    (walkBudget .standard b).value = .ok
      { finalPosition := Route.place dragon b
        totalSteps := b
        waypoints := Route.waypoints dragon (Settings.standard.records b false) b
        sequenceLength := 131070
        looped := false
        requestedDepth := some 15
        expandedDepth := some 15 } := by
  have hdepth : (Plan.forBudget .standard b).requestedDepth = 15 := by
    rw [Plan.forBudget, Plan.requestedDepth_forDepth, Settings.effectiveDepth]
    exact if_pos h
  rw [walkBudget_value _ h1, hdepth,
    walkDepth_of_lt (by decide) (Settings.endsAt_standard 15) (by omega),
    Nat.min_eq_left (by omega)]
  norm_num

/-- The report of a large budget. -/
theorem walkBudget_standard_of_gt (h : 100 < b) :
    (walkBudget .standard b).value = .ok
      { finalPosition := (orbit 25).place b
        totalSteps := b
        waypoints := (orbit 25).waypoints (Settings.standard.records b true) b
        sequenceLength := 134217726
        looped := true
        requestedDepth := some 50
        expandedDepth := some 25 } := by
  have hdepth : (Plan.forBudget .standard b).requestedDepth = 50 := by
    rw [Plan.forBudget, Plan.requestedDepth_forDepth, Settings.effectiveDepth]
    exact if_neg (by simpa [Settings.standard] using h)
  rw [walkBudget_value _ (by omega), hdepth,
    walkDepth_of_ge (e := 25) (by decide) (Settings.endsAt_standard 25) (by omega) (by omega)]
  norm_num

/-- The number of records of a small budget. -/
theorem length_waypoints_standard_of_le (t : Route) (h1 : 1 ≤ b) (h : b ≤ 100) :
    (t.waypoints (Settings.standard.records b false) b).length = if b ≤ 20 then b else 21 := by
  obtain ⟨n, rfl⟩ : ∃ n, b = n + 1 := ⟨b - 1, by omega⟩
  have hinterval : Settings.standard.interval false = 0 := rfl
  have hhead : Settings.standard.traceHead = 20 := rfl
  rw [t.length_waypoints_budget (Or.inl hinterval), hinterval, hhead, Nat.div_zero]
  split <;> omega

/-- The number of records of a large budget. -/
theorem length_waypoints_standard_of_gt (t : Route) (h : 100 < b) :
    (t.waypoints (Settings.standard.records b true) b).length =
      20 + b / 100 + if 100 ∣ b then 0 else 1 := by
  obtain ⟨n, rfl⟩ : ∃ n, b = n + 1 := ⟨b - 1, by omega⟩
  have hinterval : Settings.standard.interval true = 100 := rfl
  have hhead : Settings.standard.traceHead = 20 := rfl
  rw [t.length_waypoints_budget (Or.inr (by rw [hinterval, hhead]; omega)), hinterval, hhead]
  split <;> omega

/-- The places reckoned from the literal rounds are the dragon's. -/
theorem Sequence.reckonedPlace_literal {d k : ℕ} (hk : k ≤ 2 ^ d) :
    reckonedPlace (literal d).text.toList k = Route.place dragon k := by
  rw [← rounds_seed_eq_literal, reckonedPlace_rounds_seed, Nat.min_eq_left hk]

/-- Under the standard settings every budget but the empty one is walked to its
end and its report is exact. Here `P` gives the places reckoned from the text of 25
literal rounds, at which the walk once over it ends. -/
theorem walkBudget_standard :
    let P : ℕ → Point := reckonedPlace (Sequence.literal 25).text.toList
    (∀ c k, k ≤ 2 ^ 25 → ∃ r, ((Sequence.literal 25).walk c k false).value = .ok r ∧
      r.totalSteps = k ∧ r.finalPosition = P k) ∧
    ∀ b, 1 ≤ b → ∃ r, (walkBudget .standard b).value = .ok r ∧ r.totalSteps = b ∧
      (b ≤ 100 → r.requestedDepth = some 15 ∧ r.expandedDepth = some 15 ∧
        r.looped = false ∧ r.sequenceLength = 131070) ∧
      (100 < b → r.requestedDepth = some 50 ∧ r.expandedDepth = some 25 ∧
        r.looped = true ∧ r.sequenceLength = 134217726) ∧
      r.waypoints.length = (if b ≤ 20 then b else if b ≤ 100 then 21
        else 20 + b / 100 + if 100 ∣ b then 0 else 1) ∧
      (∃ w, r.waypoints.getLast? = some w ∧ w.stepIndex = b ∧ w.position = r.finalPosition) ∧
      r.finalPosition = (if b % 2 ^ 26 ≤ 2 ^ 25 then P (b % 2 ^ 26)
        else P (2 ^ 25) - P (b % 2 ^ 26 - 2 ^ 25)) ∧
      (b ≤ 2 ^ 25 → r.finalPosition = P b) := by
  intro P
  have hP : ∀ k ≤ 2 ^ 25, P k = Route.place dragon k := fun _ => Sequence.reckonedPlace_literal
  have horbit : ∀ b, (orbit 25).place b = if b % 2 ^ 26 ≤ 2 ^ 25 then P (b % 2 ^ 26)
      else P (2 ^ 25) - P (b % 2 ^ 26 - 2 ^ 25) := by
    intro b
    have hlt : b % 2 ^ 26 < 2 ^ 26 := Nat.mod_lt b (by omega)
    rw [orbit_place 24]
    split
    next hle => rw [hP _ hle]
    next => rw [hP _ le_rfl, hP _ (by omega)]
  refine ⟨fun c k hk => ?_, fun b h1 => ?_⟩
  · rw [hP k hk, ← Sequence.rounds_seed_eq_literal, Sequence.walk_rounds_seed_eq c (by omega),
      Nat.min_eq_left hk]
    exact ⟨_, rfl, rfl, rfl⟩
  · obtain ⟨n, rfl⟩ : ∃ n, b = n + 1 := ⟨b - 1, by omega⟩
    rcases Nat.lt_or_ge 100 (n + 1) with hgt | hle
    · refine ⟨_, walkBudget_standard_of_gt hgt, rfl, fun hle => by omega,
        fun _ => ⟨rfl, rfl, rfl, rfl⟩, ?_, ?_, horbit _, fun hpass => ?_⟩
      · rw [length_waypoints_standard_of_gt _ hgt, if_neg (show ¬ n + 1 ≤ 20 by omega),
          if_neg (show ¬ n + 1 ≤ 100 by omega)]
      · exact ⟨_, Route.getLast?_waypoints_budget _ _ _ n, rfl, rfl⟩
      · exact (horbit _).trans (by rw [Nat.mod_eq_of_lt (by omega), if_pos hpass])
    · have hplace : P (n + 1) = Route.place dragon (n + 1) := hP _ (by omega)
      have hmod : (n + 1) % 2 ^ 26 = n + 1 := Nat.mod_eq_of_lt (by omega)
      refine ⟨_, walkBudget_standard_of_le h1 hle, rfl, fun _ => ⟨rfl, rfl, rfl, rfl⟩,
        fun hgt => by omega, ?_, ?_, ?_, fun _ => hplace.symm⟩
      · rw [length_waypoints_standard_of_le _ h1 hle, if_pos hle]
      · exact ⟨_, Route.getLast?_waypoints_budget _ _ _ n, rfl, rfl⟩
      · rw [hmod, if_pos (by omega), hplace]

end DragonCurve

import DragonCurve.Proofs.Route
import DragonCurve.Settings

/-! How many moves are recorded. Three rules pick moves: those at the head, the
multiples of an interval, and the one that spends the budget. While the head is
shorter than the interval the first two never pick the same move, and before the
budget is spent the third picks none; so the records of a walk are counted by
adding up the three. The last move of the budget is always the last record. -/

namespace DragonCurve

namespace Settings

/-- The interval at which moves are recorded, zero for a walk that is not cyclic. -/
def interval (c : Settings) (looped : Bool) : ℕ := if looped then c.traceInterval else 0

theorem records_iff (c : Settings) (budget : ℕ) (looped : Bool) {step : ℕ} (h : 0 < step) :
    c.records budget looped step = true ↔
      step ≤ c.traceHead ∨ step = budget ∨ c.interval looped ∣ step := by
  have h0 : step ≠ 0 := by omega
  cases looped with
  | false => simp [records, interval, h0]
  | true =>
    rcases Nat.eq_zero_or_pos c.traceInterval with hi | hi
    · simp [records, interval, hi, h0]
    · simp [records, interval, Nat.ne_of_gt hi, Nat.dvd_iff_mod_eq_zero, or_assoc]

theorem interval_dvd_iff (c : Settings) (looped : Bool) {step : ℕ} (h : 0 < step) :
    c.interval looped ∣ step ↔ looped = true ∧ 0 < c.traceInterval ∧ c.traceInterval ∣ step := by
  cases looped with
  | false => simp [interval, Nat.ne_of_gt h]
  | true =>
    simp only [interval, ↓reduceIte, true_and]
    exact ⟨fun hd => ⟨Nat.pos_of_dvd_of_pos hd h, hd⟩, fun hd => hd.2⟩

/-- The move that spends the budget is recorded. -/
theorem records_budget (c : Settings) (budget : ℕ) (looped : Bool) :
    c.records budget looped budget = true := by
  simp [records]

end Settings

namespace Route

variable (t : Route) {c : Settings} {budget : ℕ} {looped : Bool}

theorem length_waypoints_succ (sampled : ℕ → Bool) (n : ℕ) :
    (t.waypoints sampled (n + 1)).length =
      (t.waypoints sampled n).length + if sampled (n + 1) then 1 else 0 := by
  rw [waypoints_succ, List.length_append]
  split <;> rfl

/-- Before the budget is spent, the records are those at the head and those at
multiples of the interval. -/
theorem length_waypoints_of_lt (hc : c.interval looped = 0 ∨ c.traceHead < c.interval looped)
    {n : ℕ} (hn : n < budget) : (t.waypoints (c.records budget looped) n).length =
      min n c.traceHead + n / c.interval looped := by
  induction n with
  | zero => simp [waypoints]
  | succ n ih =>
    have h0 : 0 < n + 1 := by omega
    rw [length_waypoints_succ, ih (by omega), Nat.succ_div]
    simp only [c.records_iff budget looped h0, show n + 1 ≠ budget by omega, false_or]
    by_cases hhead : n + 1 ≤ c.traceHead
    · -- a move at the head lies before the first multiple of the interval
      have hdvd : ¬ c.interval looped ∣ n + 1 := by
        intro hd
        rcases hc with h0 | hlt
        · rw [h0, zero_dvd_iff] at hd
          omega
        · have := Nat.le_of_dvd h0 hd
          omega
      rw [if_pos (Or.inl hhead), if_neg hdvd]
      omega
    · simp only [hhead, false_or]
      omega

/-- The move that spends the budget adds one record to those before it. -/
theorem length_waypoints_budget (hc : c.interval looped = 0 ∨ c.traceHead < c.interval looped)
    (n : ℕ) : (t.waypoints (c.records (n + 1) looped) (n + 1)).length =
      min n c.traceHead + n / c.interval looped + 1 := by
  rw [length_waypoints_succ, t.length_waypoints_of_lt hc (Nat.lt_succ_self n),
    if_pos (c.records_budget _ looped)]

/-- The last record is the move that spends the budget. -/
theorem getLast?_waypoints_budget (c : Settings) (looped : Bool) (n : ℕ) :
    (t.waypoints (c.records (n + 1) looped) (n + 1)).getLast? = some (t.waypoint n) := by
  rw [waypoints_succ, if_pos (c.records_budget _ looped)]
  exact List.getLast?_concat

end Route

end DragonCurve

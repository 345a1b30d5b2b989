import DragonCurve.Proofs.Reckoning
import DragonCurve.Proofs.Sampling

/-! Waypoints and the trajectory. The records of a walk are numbered in increasing
order, and a move among those made is recorded exactly when one of the three rules
picks it. A walk that ends also ends on every smaller budget, as it keeps to the
same route; so the record of move `k` shows the place where the walk of budget `k`
ends, and its heading leads there from where the walk of budget `k - 1` ends. All of
these are the places that are reckoned from the text. -/

namespace DragonCurve

namespace Route

variable (t : Route) (sampled : ℕ → Bool) (n : ℕ)

/-- Records are in the order of their moves, and no move is recorded twice. -/
theorem pairwise_waypoints :
    (t.waypoints sampled n).Pairwise fun v w => v.stepIndex < w.stepIndex := by
  rw [waypoints, List.pairwise_map]
  exact (List.pairwise_lt_range.filter _).imp Nat.succ_lt_succ

/-- The moves that are recorded are those among the first `n` that are sampled. -/
theorem exists_mem_waypoints_iff {k : ℕ} :
    (∃ w ∈ t.waypoints sampled n, w.stepIndex = k) ↔ 1 ≤ k ∧ k ≤ n ∧ sampled k = true := by
  simp only [waypoints, List.mem_map, List.mem_filter, List.mem_range]
  constructor
  · rintro ⟨_, ⟨i, ⟨hi, hs⟩, rfl⟩, rfl⟩
    exact ⟨by simp [waypoint], hi, hs⟩
  · rintro ⟨h1, hn, hs⟩
    obtain ⟨i, rfl⟩ : ∃ i, k = i + 1 := ⟨k - 1, by omega⟩
    exact ⟨_, ⟨i, ⟨by omega, hs⟩, rfl⟩, rfl⟩

/-- The heading of a record leads to its place from the place before. -/
theorem place_sub_vector (k : ℕ) :
    (t.waypoint k).position - (t.waypoint k).heading.vector = t.place k := by
  simp only [waypoint, place_succ]
  ext <;> simp

end Route

/-- A budget of moves that are all made pays for just these. -/
theorem Walk.moveCount_of_le {as : List Action} {b k : ℕ} {looped : Bool}
    (h : k ≤ moveCount as b looped) : moveCount as k looped = k := by
  unfold moveCount at h ⊢
  cases looped with
  | false => simpa using (le_min_iff.mp h).2
  | true =>
    simp only [↓reduceIte] at h ⊢
    split_ifs at h ⊢ <;> omega

namespace Sequence

/-- A walk that ends also ends on every smaller budget that its moves spend, at the
place of the route there. -/
theorem walk_of_le {c : Settings} {s : Sequence} {b k : ℕ} {looped : Bool} {r : Report}
    (h : (s.walk c b looped).value = .ok r) (hk : k ≤ r.totalSteps) :
    ∃ r', (s.walk c k looped).value = .ok r' ∧ r'.totalSteps = k ∧
      r'.finalPosition = (route s.actions).place k := by
  obtain ⟨hsafe, rfl⟩ := walk_eq_ok_iff.mp h
  have hn : Walk.moveCount s.actions k looped = k := Walk.moveCount_of_le hk
  have hsafe' : (route s.actions).Safe (Walk.moveCount s.actions k looped) :=
    hsafe.mono (hn.le.trans hk)
  refine ⟨_, walk_of_safe hsafe', hn, ?_⟩
  rw [survey, hn]

/-- The waypoints of a walk that ends. Here `P` gives the places reckoned from the text;
it starts at the origin, and the walk ends at these places on budgets up to the moves it
makes. The waypoints come in the order of their moves; they are the moves made that lie at
the head, spend the budget or, round and round, fall on a multiple of the interval; each
shows the place after its move and the heading that led there; and the last one is where
the walk ends, if it spends its budget. -/
theorem walk_waypoints {c : Settings} {s : Sequence} {b : ℕ} {looped : Bool} {r : Report}
    (h : (s.walk c b looped).value = .ok r) :
    let P k := if looped then cyclicPlace s.text.toList k else reckonedPlace s.text.toList k
    P 0 = .origin ∧
      (∀ k ≤ r.totalSteps, ∃ r', (s.walk c k looped).value = .ok r' ∧ r'.totalSteps = k ∧
        r'.finalPosition = P k) ∧
      r.waypoints.Pairwise (fun v w => v.stepIndex < w.stepIndex) ∧
      (∀ k, (∃ w ∈ r.waypoints, w.stepIndex = k) ↔ 1 ≤ k ∧ k ≤ r.totalSteps ∧
        (k ≤ c.traceHead ∨ k = b ∨
          looped = true ∧ 0 < c.traceInterval ∧ c.traceInterval ∣ k)) ∧
      (∀ w ∈ r.waypoints, w.position = P w.stepIndex ∧
        P w.stepIndex - w.heading.vector = P (w.stepIndex - 1)) ∧
      (r.totalSteps = b → 1 ≤ b → ∃ w, r.waypoints.getLast? = some w ∧ w.stepIndex = b ∧
        w.position = r.finalPosition) := by
  intro P
  obtain rfl := eq_survey_of_walk h
  have hplace : ∀ k ≤ Walk.moveCount s.actions b looped, (route s.actions).place k = P k :=
    fun k hk => place_eq_reckoned hk
  refine ⟨(hplace 0 (Nat.zero_le _)).symm, fun k hk => ?_, Route.pairwise_waypoints _ _ _,
    fun k => ?_, fun w hw => ?_, fun hspent h1 => ?_⟩
  · rw [← hplace k hk]
    exact s.walk_of_le h hk
  · refine (Route.exists_mem_waypoints_iff _ _ _).trans (and_congr_right fun h1 => ?_)
    rw [c.records_iff b looped h1, c.interval_dvd_iff looped h1]
    rfl
  · obtain ⟨k, hk, rfl⟩ := Route.mem_waypoints hw
    have hstep : ((route s.actions).waypoint k).stepIndex = k + 1 := rfl
    rw [hstep, Nat.add_sub_cancel, ← hplace (k + 1) hk, ← hplace k (Nat.le_of_succ_le hk)]
    exact ⟨rfl, Route.place_sub_vector _ k⟩
  · obtain ⟨n, rfl⟩ : ∃ n, b = n + 1 := ⟨b - 1, by omega⟩
    have hn : Walk.moveCount s.actions (n + 1) looped = n + 1 := hspent
    simp only [survey, hn]
    exact ⟨_, Route.getLast?_waypoints_budget _ c looped n, rfl, rfl⟩

/-- A walk round and round that records its first move, every second and the last. -/
theorem walk_waypoints_five :
    let c : Settings := { traceHead := 1, traceInterval := 2 }
    let s := Sequence.ofString "FRxF"
    let r : Report :=
      { finalPosition := ⟨2, -1⟩, totalSteps := 5, sequenceLength := 4, looped := true,
        waypoints := [⟨1, ⟨0, 1⟩, .north⟩, ⟨2, ⟨1, 1⟩, .east⟩, ⟨4, ⟨2, 0⟩, .south⟩,
          ⟨5, ⟨2, -1⟩, .south⟩] }
    let P := cyclicPlace s.text.toList
    (s.walk c 5 true).value = .ok r ∧
      P 0 = .origin ∧
      (∀ k ≤ r.totalSteps, ∃ r', (s.walk c k true).value = .ok r' ∧ r'.totalSteps = k ∧
        r'.finalPosition = P k) ∧
      r.waypoints.Pairwise (fun v w => v.stepIndex < w.stepIndex) ∧
      (∀ k, (∃ w ∈ r.waypoints, w.stepIndex = k) ↔ 1 ≤ k ∧ k ≤ r.totalSteps ∧
        (k ≤ c.traceHead ∨ k = 5 ∨
          true = true ∧ 0 < c.traceInterval ∧ c.traceInterval ∣ k)) ∧
      (∀ w ∈ r.waypoints, w.position = P w.stepIndex ∧
        P w.stepIndex - w.heading.vector = P (w.stepIndex - 1)) ∧
      (r.totalSteps = 5 → 1 ≤ 5 → ∃ w, r.waypoints.getLast? = some w ∧ w.stepIndex = 5 ∧
        w.position = r.finalPosition) := by
  intro c s r P
  have h : (s.walk c 5 true).value = .ok r := by decide +kernel
  exact ⟨h, walk_waypoints h⟩

end Sequence

end DragonCurve

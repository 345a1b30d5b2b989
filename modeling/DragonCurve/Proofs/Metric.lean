import DragonCurve.Proofs.Cyclic
import DragonCurve.Proofs.Decoding

/-! The metric of the grid. A move goes one step along a line of the grid, so `n` moves lead
at most `n` steps away from the origin, and to a point whose coordinates add up to a number of
the parity of `n`. This holds of the places of every route, and so of every place that a walk
reports, over a text or over modules, once or round and round. A coordinate leaves the range
only beyond `2 ^ 31 - 1` steps: no smaller budget can pay for an overflow, and `2 ^ 31` moves
straight on are one. -/

namespace DragonCurve

/-- As far as the metric of the grid says, `n` moves from the origin can lead to the point. -/
def Point.WithinMoves (n : ℕ) (p : Point) : Prop :=
  |p.x| + |p.y| ≤ n ∧ (p.x + p.y) % 2 = (n : ℤ) % 2

theorem Point.WithinMoves.inRange {n : ℕ} {p : Point} (h : p.WithinMoves n) (hn : n < 2 ^ 31) :
    p.InRange := by
  have hx := abs_le.mp ((le_add_of_nonneg_right (abs_nonneg p.y)).trans h.1)
  have hy := abs_le.mp ((le_add_of_nonneg_left (abs_nonneg p.x)).trans h.1)
  unfold Point.InRange
  omega

theorem Heading.abs_vector (h : Heading) : |h.vector.x| + |h.vector.y| = 1 := by
  cases h <;> rfl

namespace Route

variable (t : Route)

/-- One move changes the distance along the lines of the grid by one at most. -/
theorem abs_place_le (k : ℕ) : |(t.place k).x| + |(t.place k).y| ≤ k := by
  induction k with
  | zero => simp
  | succ k ih =>
    have hstep := (t.heading k).abs_vector
    have hx := abs_add_le (t.place k).x (t.heading k).vector.x
    have hy := abs_add_le (t.place k).y (t.heading k).vector.y
    rw [place_succ, Point.x_add, Point.y_add]
    push_cast
    linarith

theorem place_withinMoves (k : ℕ) : (t.place k).WithinMoves k :=
  ⟨t.abs_place_le k, t.place_parity k⟩

/-- Only `2 ^ 31` moves can leave the range. -/
theorem safe_of_lt {n : ℕ} (hn : n < 2 ^ 31) : t.Safe n :=
  fun k hk => (t.place_withinMoves k).inRange (hk.trans_lt hn)

end Route

theorem Walk.moveCount_le (as : List Action) (budget : ℕ) (looped : Bool) :
    moveCount as budget looped ≤ budget := by
  unfold moveCount
  split_ifs
  · exact Nat.zero_le _
  · exact le_rfl
  · exact Nat.min_le_left _ _

/-- All places that the report names are within the moves that led there. -/
def Report.ObeysMetric (r : Report) : Prop :=
  r.finalPosition.WithinMoves r.totalSteps ∧
    ∀ w ∈ r.waypoints, w.position.WithinMoves w.stepIndex

namespace Sequence

theorem survey_obeysMetric (c : Settings) (s : Sequence) (budget : ℕ) (looped : Bool) :
    (s.survey c budget looped).ObeysMetric := by
  refine ⟨Route.place_withinMoves _ _, fun w hw => ?_⟩
  obtain ⟨k, -, rfl⟩ := Route.mem_waypoints hw
  exact Route.place_withinMoves _ _

/-- A walk over a sequence obeys the metric, or leaves the range on a budget that pays for
it. -/
theorem walk_obeysMetric (c : Settings) (s : Sequence) (budget : ℕ) (looped : Bool) :
    (∃ r, (s.walk c budget looped).value = .ok r ∧ r.ObeysMetric) ∨
      (s.walk c budget looped).value = .error .overflow ∧ 2 ^ 31 ≤ budget := by
  by_cases hsafe : (route s.actions).Safe (Walk.moveCount s.actions budget looped)
  · exact Or.inl ⟨_, walk_of_safe hsafe, s.survey_obeysMetric c budget looped⟩
  · refine Or.inr ⟨walk_of_not_safe hsafe, ?_⟩
    by_contra hlt
    have hcount := Walk.moveCount_le s.actions budget looped
    exact hsafe (Route.safe_of_lt _ (by omega))

end Sequence

/-- A walk over a text, once or round and round, or over modules by a legend reports only
places that are not further away than the moves that led there, and of their parity; or it
leaves the range of coordinates, which no budget of less than `2 ^ 31` moves can do. With
`2 ^ 31` moves it happens: round and round over the seed, the turtle never turns. -/
theorem walk_metric {μ : Type*} [ModuleList μ] (c : Settings) (budget : ℕ) :
    let obeys (outcome : Except Fault Report) :=
      (∃ r, outcome = .ok r ∧ r.ObeysMetric) ∨ outcome = .error .overflow ∧ 2 ^ 31 ≤ budget
    (∀ (t : String) (looped : Bool), obeys ((Sequence.ofString t).walk c budget looped).value) ∧
    (∀ (m : μ) (l : Legend), obeys (l.walk c m budget).value) ∧
    (Sequence.seed.walk c (2 ^ 31) true).value = .error .overflow := by
  intro obeys
  refine ⟨fun t looped => Sequence.walk_obeysMetric c _ budget looped, fun m l => ?_, ?_⟩
  · rw [Legend.walk_of_actions (l.actions_decode (ModuleList.ids m)).symm]
    exact Sequence.walk_obeysMetric c _ budget false
  · rw [Sequence.walk_seed_looped, if_neg (lt_irrefl _)]

end DragonCurve

import DragonCurve.Proofs.Bearing
import DragonCurve.Report

/-! Walks follow routes. A walk that has made `n` moves of a route carries the
place and the waypoints of the route at `n`; one action takes it one move on, or
turns it, or faults when the next place is out of range. By induction a pass
follows the bearings of its actions, and a cyclic walk the route of its list, up
to the budget. So the report of a walk is read off the route: it exists exactly
when every place on the way is in range. -/

namespace DragonCurve

instance (t : Route) (n : ℕ) : Decidable (t.Safe n) := by unfold Route.Safe; infer_instance

namespace Walk

variable {sampled : ℕ → Bool} {t : Route}

/-- The walk that has made `n` moves of the route and is turned by `b`. -/
def along (sampled : ℕ → Bool) (t : Route) (n : ℕ) (b : ℤ) : Walk :=
  ⟨⟨t.place n, Heading.north.rotate b⟩, n, (t.waypoints sampled n).toArray⟩

/-- The outcome of making `n` moves of the route: the walk along it, or a fault
when one of the moves leaves the range of coordinates. -/
def follow (sampled : ℕ → Bool) (t : Route) (n : ℕ) (b : ℤ) : Except Fault Walk :=
  if t.Safe n then .ok (along sampled t n b) else .error .overflow

theorem follow_of_safe {n : ℕ} (h : t.Safe n) (b : ℤ) :
    follow sampled t n b = .ok (along sampled t n b) := if_pos h

theorem follow_of_not_safe {n : ℕ} (h : ¬ t.Safe n) (b : ℤ) :
    follow sampled t n b = .error .overflow := if_neg h

@[simp] theorem along_steps (n : ℕ) (b : ℤ) : (along sampled t n b).steps = n := rfl

theorem along_zero : along sampled t 0 0 = start := by
  simp [along, start, Turtle.home, Route.waypoints]

/-! ### One action -/

theorem along_forward {n : ℕ} {b : ℤ} (h : t n = b) (hr : (t.place (n + 1)).InRange) :
    (along sampled t n b).step sampled .forward = .ok (along sampled t (n + 1) b) := by
  subst h
  have ha : (along sampled t n (t n)).turtle.ahead = t.place (n + 1) := rfl
  simp only [step, Turtle.apply, Turtle.forward, ha, if_pos hr, Except.map]
  simp only [moved, along, Route.waypoints_succ, Except.ok.injEq, Walk.mk.injEq, true_and]
  split <;> rename_i hsampled <;> simp [hsampled, Route.waypoint, Route.heading]

theorem along_overflow {n : ℕ} {b : ℤ} (h : t n = b) (hr : ¬ (t.place (n + 1)).InRange) :
    (along sampled t n b).step sampled .forward = .error .overflow := by
  subst h
  have ha : (along sampled t n (t n)).turtle.ahead = t.place (n + 1) := rfl
  simp only [step, Turtle.apply, Turtle.forward, ha, if_neg hr, Except.map]

theorem along_turn {a : Action} (h : a ≠ .forward) (n : ℕ) (b : ℤ) :
    (along sampled t n b).step sampled a = .ok (along sampled t n (b + a.turning)) := by
  cases a with
  | forward => exact absurd rfl h
  | turnLeft =>
    simp [step, Turtle.apply, Turtle.turnLeft, along, Heading.turnLeft_eq, Heading.rotate_rotate,
      Action.turning]
  | turnRight =>
    simp [step, Turtle.apply, Turtle.turnRight, along, Heading.turnRight_eq, Heading.rotate_rotate,
      Action.turning]
  | ignore => simp [step, Turtle.apply, along, Action.turning]

/-! ### One pass -/

/-- A pass follows the route for as many moves as it has, or as the budget
allows. If budget is left, all its turns have been made. -/
theorem along_pass (sampled : ℕ → Bool) (budget : ℕ) (as : List Action) (n : ℕ) (b : ℤ)
    (hn : n ≤ budget) (hs : t.Safe n) (ht : ∀ i x, (bearings b as)[i]? = some x → t (n + i) = x) :
    ∃ b', (along sampled t n b).pass sampled budget as =
        follow sampled t (min budget (n + as.count .forward)) b' ∧
      (n + as.count .forward < budget → b' = b + turning as) := by
  induction as generalizing n b with
  | nil =>
    refine ⟨b, ?_, by simp⟩
    rw [List.count_nil, Nat.add_zero, Nat.min_eq_right hn, follow_of_safe hs, pass]
  | cons a as ih =>
    rw [pass, along_steps]
    by_cases hb : budget ≤ n
    · refine ⟨b, ?_, fun h => by omega⟩
      rw [if_pos hb, Nat.min_eq_left (by omega), Nat.le_antisymm hb hn, follow_of_safe hs]
    rw [if_neg hb]
    by_cases ha : a = .forward
    · subst ha
      rw [List.count_cons_self]
      have h0 : t n = b := ht 0 b (by simp)
      by_cases hr : (t.place (n + 1)).InRange
      · obtain ⟨b', he, hb'⟩ := ih (n + 1) b (by omega) (Route.safe_succ.mpr ⟨hs, hr⟩)
          (fun i x hx => by rw [Nat.add_right_comm]; exact ht (i + 1) x (by simpa using hx))
        refine ⟨b', ?_, fun h => by rw [hb' (by omega)]; simp [Action.turning]⟩
        rw [along_forward h0 hr]
        simp only [he]
        congr 2
        omega
      · refine ⟨b + turning (.forward :: as), ?_, fun _ => rfl⟩
        rw [along_overflow h0 hr, follow_of_not_safe]
        exact fun h => hr (h (n + 1) (by omega))
    · rw [bearings_cons ha] at ht
      obtain ⟨b', he, hb'⟩ := ih n (b + a.turning) hn hs ht
      rw [List.count_cons_of_ne ha, along_turn ha]
      exact ⟨b', he, fun h => by rw [hb' h, turning_cons, add_assoc]⟩

/-! ### Round and round -/

section Cycle

variable {budget : ℕ} {as : List Action} {w next : Walk}

theorem cycle_of_fault {f : Fault} (h : w.pass sampled budget as = .error f) :
    w.cycle sampled budget as = pure (.error f) := by
  rw [cycle, h]

theorem cycle_of_spent (h : w.pass sampled budget as = .ok next) (hb : budget ≤ next.steps) :
    w.cycle sampled budget as = pure (.ok next) := by
  rw [cycle, h]
  exact if_pos hb

theorem cycle_of_moved (h : w.pass sampled budget as = .ok next) (hb : next.steps < budget)
    (hm : w.steps < next.steps) :
    w.cycle sampled budget as = next.cycle sampled budget as := by
  rw [cycle, h]
  exact (if_neg (by omega)).trans (if_pos hm)

theorem cycle_of_idle (h : w.pass sampled budget as = .ok next) (hb : next.steps < budget)
    (hm : next.steps ≤ w.steps) :
    w.cycle sampled budget as = ⟨.ok next, [.abandoned budget]⟩ := by
  rw [cycle, h]
  exact (if_neg (by omega)).trans (if_neg (by omega))

end Cycle

/-- After `p` whole passes, a cyclic walk over a list with a move follows its
route up to the budget, and reports nothing. -/
theorem along_cycle (sampled : ℕ → Bool) (budget : ℕ) {as : List Action}
    (hf : 0 < as.count .forward) (p : ℕ) (hn : p * as.count .forward ≤ budget) (hs : (route as).Safe (p * as.count .forward)) :
    ∃ b', (along sampled (route as) (p * as.count .forward) (p * turning as)).cycle
      sampled budget as = pure (follow sampled (route as) budget b') := by
  induction hm : budget - p * as.count .forward using Nat.strong_induction_on generalizing p with
  | h m ih =>
    obtain ⟨b', he, hb'⟩ := along_pass sampled budget as _ _ hn hs
      (fun i x hx => route_pass p hx)
    by_cases hsafe : (route as).Safe (min budget (p * as.count .forward + as.count .forward))
    · rw [follow_of_safe hsafe] at he
      by_cases hle : budget ≤ p * as.count .forward + as.count .forward
      · rw [Nat.min_eq_left hle] at hsafe he
        exact ⟨b', by rw [cycle_of_spent he le_rfl, follow_of_safe hsafe]⟩
      · have hlt : p * as.count .forward + as.count .forward < budget := by omega
        have hp : (p + 1) * as.count .forward = p * as.count .forward + as.count .forward := by ring
        have ht : ((p + 1 : ℕ) : ℤ) * turning as = p * turning as + turning as := by push_cast; ring
        rw [Nat.min_eq_right hlt.le, ← hp, hb' hlt, ← ht] at he
        rw [Nat.min_eq_right hlt.le, ← hp] at hsafe
        rw [cycle_of_moved he (by rw [along_steps]; omega) (by rw [along_steps, along_steps]; omega)]
        exact ih _ (by omega) (p + 1) (by omega) hsafe rfl
    · rw [follow_of_not_safe hsafe] at he
      refine ⟨0, ?_⟩
      rw [cycle_of_fault he, follow_of_not_safe fun h => hsafe (h.mono (Nat.min_le_left _ _))]

/-! ### A whole walk -/

/-- The number of moves that a budget pays for: once over the list, the moves it
has; round and round, as many as the budget if it has any. -/
def moveCount (as : List Action) (budget : ℕ) (looped : Bool) : ℕ :=
  if looped then if as.count .forward = 0 then 0 else budget else min budget (as.count .forward)

/-- A cyclic walk is given up when its list has no move and it should make one. -/
def abandons (as : List Action) (budget : ℕ) (looped : Bool) : Bool :=
  looped && as.count .forward == 0 && 0 < budget

/-- Every walk follows the route of its list for as many moves as its budget
pays for. -/
theorem run_eq (c : Settings) (as : List Action) (budget : ℕ) (looped : Bool) :
    ∃ b, run c as budget looped =
      ⟨follow (c.records budget looped) (route as) (moveCount as budget looped) b,
        if abandons as budget looped then [.abandoned budget] else []⟩ := by
  have hfirst : ∀ i x, (bearings 0 as)[i]? = some x → route as (0 + i) = x := by
    intro i x hx
    rw [Nat.zero_add, route_first hx]
  obtain ⟨b', he, -⟩ := along_pass (c.records budget looped) budget as 0 0 (Nat.zero_le _)
    (Route.safe_zero _) hfirst
  rw [along_zero, Nat.zero_add] at he
  cases looped with
  | false =>
    refine ⟨b', ?_⟩
    simp only [run, Bool.false_eq_true, ↓reduceIte, he, moveCount, abandons, Bool.false_and]
    rfl
  | true =>
    rcases Nat.eq_zero_or_pos (as.count .forward) with hf | hf
    · rw [hf, Nat.min_zero, follow_of_safe (Route.safe_zero _)] at he
      refine ⟨b', ?_⟩
      simp only [run, ↓reduceIte, moveCount, hf, abandons, Bool.true_and, beq_self_eq_true,
        follow_of_safe (Route.safe_zero _)]
      rcases Nat.eq_zero_or_pos budget with rfl | hb
      · rw [cycle_of_spent he (by simp)]
        rfl
      · rw [cycle_of_idle he (by simpa using hb) (by simp)]
        simp [hb]
    · obtain ⟨b, hc⟩ := along_cycle (c.records budget true) budget hf 0 (by simp)
        (by rw [Nat.zero_mul]; exact Route.safe_zero _)
      refine ⟨b, ?_⟩
      simp only [Nat.zero_mul, Nat.cast_zero, Int.zero_mul, along_zero] at hc
      simp only [run, ↓reduceIte, hc, moveCount, abandons, Nat.ne_of_gt hf, Bool.true_and]
      simp [Nat.ne_of_gt hf]
      rfl

end Walk

namespace Sequence

/-- What the report of a walk says when the grid has no edge. -/
def survey (c : Settings) (s : Sequence) (budget : ℕ) (looped : Bool) : Report where
  finalPosition := (route s.actions).place (Walk.moveCount s.actions budget looped)
  totalSteps := Walk.moveCount s.actions budget looped
  waypoints := (route s.actions).waypoints (c.records budget looped)
    (Walk.moveCount s.actions budget looped)
  sequenceLength := s.length
  looped := looped

/-- A walk is its survey as long as every place on the way is in range, and a
fault otherwise. -/
theorem walk_eq (c : Settings) (s : Sequence) (budget : ℕ) (looped : Bool) :
    s.walk c budget looped =
      ⟨if (route s.actions).Safe (Walk.moveCount s.actions budget looped) then
          .ok (s.survey c budget looped)
        else .error .overflow,
        if Walk.abandons s.actions budget looped then [.abandoned budget] else []⟩ := by
  obtain ⟨b, hr⟩ := Walk.run_eq c s.actions budget looped
  unfold walk
  rw [hr]
  by_cases hs : (route s.actions).Safe (Walk.moveCount s.actions budget looped)
  · rw [if_pos hs, Walk.follow_of_safe hs]
    simp [bind, pure, Except.map, Walk.report, Walk.along, survey]
  · rw [if_neg hs, Walk.follow_of_not_safe hs]
    simp [bind, pure, Except.map]

theorem walk_of_safe {c : Settings} {s : Sequence} {budget : ℕ} {looped : Bool}
    (h : (route s.actions).Safe (Walk.moveCount s.actions budget looped)) :
    (s.walk c budget looped).value = .ok (s.survey c budget looped) := by
  rw [walk_eq]
  exact if_pos h

theorem walk_of_not_safe {c : Settings} {s : Sequence} {budget : ℕ} {looped : Bool}
    (h : ¬ (route s.actions).Safe (Walk.moveCount s.actions budget looped)) :
    (s.walk c budget looped).value = .error .overflow := by
  rw [walk_eq]
  exact if_neg h

/-- A walk ends exactly when no move leaves the range, and then it has made its
survey. -/
theorem walk_eq_ok_iff {c : Settings} {s : Sequence} {budget : ℕ} {looped : Bool} {r : Report} :
    (s.walk c budget looped).value = .ok r ↔
      (route s.actions).Safe (Walk.moveCount s.actions budget looped) ∧
        r = s.survey c budget looped := by
  rw [walk_eq]
  dsimp only
  split
  next hs => simp [hs, eq_comm]
  next hs => simp [hs]

theorem eq_survey_of_walk {c : Settings} {s : Sequence} {budget : ℕ} {looped : Bool} {r : Report}
    (h : (s.walk c budget looped).value = .ok r) : r = s.survey c budget looped :=
  (walk_eq_ok_iff.mp h).2

end Sequence

end DragonCurve

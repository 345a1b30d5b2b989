import DragonCurve.Proofs.Following

/-! Cyclic walks unrolled. Every pass but the last of a cyclic walk makes a move, so
a budget of `b` moves never takes more than `b` passes, or one if it is empty. Over
a sequence with moves the walk follows the same route as the walk once over enough
copies of the sequence; it also records the multiples of the interval, which the
other does not. Over a sequence without moves it ends with its first pass, and is
given up if there is a budget. -/

namespace DragonCurve

/-! ### The end of the loop -/

namespace Walk

variable {sampled : ℕ → Bool} {budget : ℕ} {actions : List Action}

/-- The cyclic walk in at most so many passes, and nothing if these do not end it. -/
def cycleWithin (sampled : ℕ → Bool) (budget : ℕ) (actions : List Action) :
    ℕ → Walk → Option (Logged (Except Fault Walk))
  | 0, _ => none
  | n + 1, w =>
    match w.pass sampled budget actions with
    | .error f => some (pure (.error f))
    | .ok next =>
      if budget ≤ next.steps then some (pure (.ok next))
      else if w.steps < next.steps then cycleWithin sampled budget actions n next
      else some ⟨.ok next, [.abandoned budget]⟩

/-- A pass that does not end a cyclic walk makes a move, so as many passes are enough
as there are moves left in the budget, or one if there are none. -/
theorem cycleWithin_eq {n : ℕ} {w : Walk} (hn : budget ≤ w.steps + n) (h1 : 1 ≤ n) :
    cycleWithin sampled budget actions n w = some (w.cycle sampled budget actions) := by
  induction n generalizing w with
  | zero => omega
  | succ n ih =>
    rw [cycleWithin]
    cases hpass : w.pass sampled budget actions with
    | error f => rw [cycle_of_fault hpass]
    | ok next =>
      dsimp only
      by_cases hspent : budget ≤ next.steps
      · rw [if_pos hspent, cycle_of_spent hpass hspent]
      rw [if_neg hspent]
      by_cases hmoved : w.steps < next.steps
      · rw [if_pos hmoved, cycle_of_moved hpass (by omega) hmoved]
        exact ih (by omega) (by omega)
      · rw [if_neg hmoved, cycle_of_idle hpass (by omega) (by omega)]

end Walk

/-! ### Copies -/

/-- Pass `p` goes through the route's moves from the `p`-th multiple of the number of
moves in a pass. -/
theorem bearings_pass (as : List Action) (p : ℕ) : bearings (p * turning as) as =
    (List.range (as.count .forward)).map fun i => route as (p * as.count .forward + i) := by
  apply List.ext_getElem
  · rw [length_bearings, List.length_map, List.length_range]
  · intro i hi _
    rw [List.getElem_map, List.getElem_range]
    exact (route_pass p (List.getElem?_eq_getElem hi)).symm

theorem turning_copies (as : List Action) (m : ℕ) :
    turning (List.replicate m as).flatten = m * turning as := by
  induction m with
  | zero => simp
  | succ m ih =>
    rw [List.replicate_succ, List.flatten_cons, turning_append, ih]
    push_cast
    ring

theorem count_copies (as : List Action) (m : ℕ) :
    (List.replicate m as).flatten.count .forward = m * as.count .forward := by
  simp [List.count_flatten]

/-- The moves of `m` copies are the first `m` passes of the route. -/
theorem bearings_copies (as : List Action) (m : ℕ) : bearings 0 (List.replicate m as).flatten =
    (List.range (m * as.count .forward)).map (route as) := by
  induction m with
  | zero => simp
  | succ m ih =>
    rw [List.replicate_succ', List.flatten_concat, bearings_append, ih, zero_add, turning_copies,
      bearings_pass, Nat.succ_mul, List.range_add, List.map_append, List.map_map]
    rfl

theorem route_copies {as : List Action} {m k : ℕ} (h : k < m * as.count .forward) :
    route (List.replicate m as).flatten k = route as k := by
  rw [route_of_lt (by rwa [count_copies]), bearings_copies, List.getD_eq_getElem?_getD,
    List.getElem?_map, List.getElem?_range h]
  rfl

namespace Sequence

/-- So many copies of a sequence, one after the other. -/
def copies (m : ℕ) (s : Sequence) : Sequence := ofString (String.join (List.replicate m s.text))

theorem actions_copies (m : ℕ) (s : Sequence) :
    (s.copies m).actions = (List.replicate m s.actions).flatten := by
  simp [copies, actions, symbols, String.toList_join, List.flatMap, List.map_flatten]

/-- The cyclic walk over a sequence in at most so many passes. -/
def walkWithin (c : Settings) (s : Sequence) (budget passes : ℕ) :
    Option (Logged (Except Fault Report)) :=
  (Walk.start.cycleWithin (c.records budget true) budget s.actions passes).map fun ended => do
    let outcome ← ended
    pure (outcome.map (·.report s.length true))

theorem walkWithin_eq (c : Settings) (s : Sequence) {budget n : ℕ} (h : max 1 budget ≤ n) :
    s.walkWithin c budget n = some (s.walk c budget true) := by
  rw [walkWithin, Walk.cycleWithin_eq (by omega) (by omega)]
  rfl

/-! ### Walks of copies -/

section Copies

variable (c : Settings) {s : Sequence} {m b : ℕ}

theorem moveCount_of_pos (h : 0 < s.actions.count .forward) :
    Walk.moveCount s.actions b true = b := by
  simp [Walk.moveCount, Nat.ne_of_gt h]

theorem moveCount_copies (hm : b ≤ m * s.actions.count .forward) :
    Walk.moveCount (s.copies m).actions b false = b := by
  simpa [Walk.moveCount, actions_copies, count_copies] using hm

/-- While the budget fits in the copies, they lead along the route of the cyclic
walk. -/
theorem route_actions_copies (hm : b ≤ m * s.actions.count .forward) :
    ∀ k < b, route (s.copies m).actions k = route s.actions k := by
  intro k hk
  rw [actions_copies, route_copies (hk.trans_le hm)]

/-- The records of a walk once along a route are those of the cyclic walk at the head
and at the end of the budget. -/
theorem waypoints_once (t : Route) (b n : ℕ) : t.waypoints (c.records b false) n =
    (t.waypoints (c.records b true) n).filter
      fun w => w.stepIndex ≤ c.traceHead ∨ w.stepIndex = b := by
  have hrecords : ∀ k, c.records b false k =
      (decide (k ≤ c.traceHead ∨ k = b) && c.records b true k) := by
    intro k
    rw [Bool.eq_iff_iff]
    simp only [Settings.records, Bool.and_eq_true, Bool.or_eq_true, decide_eq_true_eq, beq_iff_eq]
    tauto
  rw [Route.waypoints, Route.waypoints, List.filter_map, List.filter_filter]
  congr 1
  exact List.filter_congr fun k _ => hrecords (k + 1)

theorem walk_copies (hf : 0 < s.actions.count .forward) (hm : b ≤ m * s.actions.count .forward) :
    ((s.walk c b true).value = .error .overflow ∧
        ((s.copies m).walk c b false).value = .error .overflow) ∨
      ∃ r r', (s.walk c b true).value = .ok r ∧ ((s.copies m).walk c b false).value = .ok r' ∧
        r.totalSteps = b ∧ r'.totalSteps = b ∧ r.finalPosition = r'.finalPosition ∧
        r.sequenceLength = s.length ∧
        r'.waypoints = r.waypoints.filter
          fun w => w.stepIndex ≤ c.traceHead ∨ w.stepIndex = b := by
  have hroute := route_actions_copies hm
  have hn := moveCount_of_pos (b := b) hf
  have hn' := moveCount_copies hm
  -- both walks make `b` moves along one route, so they overflow together
  by_cases hsafe : (route s.actions).Safe b
  · have hsafe' := (Route.safe_congr hroute).mpr hsafe
    refine Or.inr ⟨_, _, walk_of_safe (hn.symm ▸ hsafe), walk_of_safe (hn'.symm ▸ hsafe'),
      hn, hn', ?_, rfl, ?_⟩
    · simp only [survey, hn, hn', Route.place_congr hroute b le_rfl]
    · simp only [survey, hn, hn', Route.waypoints_congr hroute]
      exact waypoints_once c _ b b
  · have hsafe' := mt (Route.safe_congr hroute).mp hsafe
    exact Or.inl ⟨walk_of_not_safe (hn.symm ▸ hsafe), walk_of_not_safe (hn'.symm ▸ hsafe')⟩

end Copies

/-- Round and round over a sequence without moves, the turtle stays at home. -/
theorem walk_of_motionless (c : Settings) {s : Sequence} (b : ℕ)
    (hf : s.actions.count .forward = 0) : (s.walk c b true).value = .ok
      { finalPosition := .origin, totalSteps := 0, sequenceLength := s.length, looped := true,
        waypoints := [] } := by
  have hn : Walk.moveCount s.actions b true = 0 := by simp [Walk.moveCount, hf]
  rw [walk_of_safe (hn.symm ▸ Route.safe_zero _), survey, hn]
  rfl

theorem events_walk_looped (c : Settings) (s : Sequence) (b : ℕ) : (s.walk c b true).events =
    if s.actions.count .forward = 0 ∧ 0 < b then [.abandoned b] else [] := by
  rw [walk_eq]
  simp [Walk.abandons]

end Sequence

/-- The cyclic walk unrolled. The loop always ends, in at most as many passes as the
budget has moves or in one. Over a text with moves it is not given up and has the same
outcome as the walk once over enough copies of the text: both spend the budget and end
at the same place, and of the records the latter has those at the head and at the end
of the budget. Over a text without moves it stays at the origin, and is given up if
there is a budget. -/
theorem walk_unrolled (c : Settings) (t : String) (b : ℕ) :
    let s := Sequence.ofString t
    let walk := s.walk c b true
    (∀ n, max 1 b ≤ n → s.walkWithin c b n = some walk) ∧
    (1 ≤ s.forwardCount → walk.events = [] ∧ ∀ m, b ≤ m * s.forwardCount →
      let once := ((Sequence.ofString (String.join (List.replicate m t))).walk c b false).value
      (walk.value = .error .overflow ∧ once = .error .overflow) ∨
      ∃ r r', walk.value = .ok r ∧ once = .ok r' ∧ r.totalSteps = b ∧ r'.totalSteps = b ∧
        r.finalPosition = r'.finalPosition ∧ r.sequenceLength = t.length ∧
        r'.waypoints = r.waypoints.filter
          fun w => w.stepIndex ≤ c.traceHead ∨ w.stepIndex = b) ∧
    (s.forwardCount = 0 →
      walk.value = .ok
        { finalPosition := .origin, totalSteps := 0, sequenceLength := t.length, looped := true,
          waypoints := [] } ∧
      walk.events = if 0 < b then [.abandoned b] else []) := by
  intro s walk
  have hevents := s.events_walk_looped c b
  rw [← s.count_actions]
  refine ⟨fun n hn => s.walkWithin_eq c hn, fun hf => ⟨?_, fun m hm => s.walk_copies c hf hm⟩,
    fun hf => ⟨s.walk_of_motionless c b hf, ?_⟩⟩
  · rw [hevents, if_neg (by omega)]
  · rw [hevents]
    simp only [hf, true_and]

end DragonCurve

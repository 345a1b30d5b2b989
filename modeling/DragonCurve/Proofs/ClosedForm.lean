import DragonCurve.Proofs.Cutoff
import DragonCurve.Proofs.Orbit

/-! The walk of a depth in closed form. The plan of a depth says how far to
expand and whether to go round, and the cutoff says where the expansion ends. So
the walk of the depth is the walk over as many literal rounds of the seed, and
its report is the report of that walk with both depths noted: once over the seed
it is read off the dragon, round and round off the orbit. The walk of a budget is
the walk of the depth planned for it. -/

namespace DragonCurve

namespace Plan

variable (c : Settings) (d : ℕ)

@[simp] theorem requestedDepth_forDepth : (forDepth c d).requestedDepth = d := by
  unfold forDepth
  split <;> rfl

theorem expansionDepth_forDepth : (forDepth c d).expansionDepth =
    if c.loopThresholdDepth ≤ d then min d c.practicalDepthCap else d := by
  unfold forDepth
  split <;> rfl

theorem looped_forDepth : (forDepth c d).looped = decide (c.loopThresholdDepth ≤ d) := by
  unfold forDepth
  split <;> simp_all

end Plan

/-- A walk of a depth is the walk over the literal rounds up to where the
expansion ends, with both depths noted in its report. -/
theorem walkDepth_eq {c : Settings} {d e : ℕ} (he : c.EndsAt (Plan.forDepth c d).expansionDepth e)
    (b : ℕ) : (walkDepth c d b).value =
      ((Sequence.literal e).walk c b (Plan.forDepth c d).looped).value.map fun s =>
        { s with requestedDepth := some d, expandedDepth := some e } := by
  rw [walkDepth_value]
  dsimp only
  rw [expand_sequence, Sequence.rounds_seed_eq_literal, (expand_endsAt c _).unique he]

section

variable {c : Settings} {d e : ℕ}

/-- Below the threshold the rounds are walked once. -/
theorem walkDepth_eq_of_lt (hd : d < c.loopThresholdDepth) (he : c.EndsAt d e) (b : ℕ) :
    (walkDepth c d b).value = ((Sequence.literal e).walk c b false).value.map fun s =>
      { s with requestedDepth := some d, expandedDepth := some e } := by
  have hnot : ¬ c.loopThresholdDepth ≤ d := by omega
  rw [walkDepth_eq (e := e), Plan.looped_forDepth, decide_eq_false hnot]
  rwa [Plan.expansionDepth_forDepth, if_neg hnot]

/-- From the threshold on they are capped and walked round and round. -/
theorem walkDepth_eq_of_ge (hd : c.loopThresholdDepth ≤ d)
    (he : c.EndsAt (min d c.practicalDepthCap) e) (b : ℕ) :
    (walkDepth c d b).value = ((Sequence.literal e).walk c b true).value.map fun s =>
      { s with requestedDepth := some d, expandedDepth := some e } := by
  rw [walkDepth_eq (e := e), Plan.looped_forDepth, decide_eq_true hd]
  rwa [Plan.expansionDepth_forDepth, if_pos hd]

end

/-- What the report of a walk over literal rounds says beside places and
waypoints. -/
theorem Sequence.survey_literal (c : Settings) (e b : ℕ) (looped : Bool) :
    ((literal e).survey c b looped).sequenceLength = 2 ^ (e + 2) - 2 ∧
      ((literal e).survey c b looped).totalSteps = if looped then b else min b (2 ^ e) := by
  rw [← rounds_seed_eq_literal]
  exact ⟨length_rounds_seed e, moveCount_rounds_seed e b looped⟩

/-- The walk of a budget that is not empty is the walk of the depth planned for
it. -/
theorem walkBudget_value (c : Settings) {b : ℕ} (hb : 1 ≤ b) :
    (walkBudget c b).value = (walkDepth c (Plan.forBudget c b).requestedDepth b).value := by
  rw [walkBudget, if_neg (by omega), Plan.forBudget, Plan.requestedDepth_forDepth]
  rfl

/-- A walk of a depth ends with a report exactly when the walk over the literal
rounds up to where its expansion ends does, and then the report is that of this
walk with both depths noted. A walk of a budget is the walk of the planned depth,
and a fault for the empty budget. -/
theorem walk_closed_form (c : Settings) (b : ℕ) :
    (∀ d r, (walkDepth c d b).value = .ok r ↔
      ∃ e, c.EndsAt (if c.loopThresholdDepth ≤ d then min d c.practicalDepthCap else d) e ∧
        r.requestedDepth = some d ∧ r.expandedDepth = some e ∧
        r.sequenceLength = 2 ^ (e + 2) - 2 ∧ r.looped = decide (c.loopThresholdDepth ≤ d) ∧
        r.totalSteps = (if c.loopThresholdDepth ≤ d then b else min b (2 ^ e)) ∧
        ((Sequence.literal e).walk c b r.looped).value =
          .ok { r with requestedDepth := none, expandedDepth := none }) ∧
    (1 ≤ b →
      (walkBudget c b).value = (walkDepth c (Plan.forBudget c b).requestedDepth b).value ∧
        ∀ r, (walkBudget c b).value = .ok r → r.looped = (Plan.forBudget c b).looped) ∧
    (walkBudget c 0).value = .error .emptyBudget := by
  refine ⟨fun d r => ?_, fun hb => ?_, rfl⟩
  · rw [← Plan.expansionDepth_forDepth, ← Plan.looped_forDepth]
    constructor
    · intro h
      have hend := expand_endsAt c (Plan.forDepth c d).expansionDepth
      rw [walkDepth_eq hend] at h
      obtain ⟨s, hs, rfl⟩ := map_eq_ok_iff.mp h
      obtain rfl := Sequence.eq_survey_of_walk hs
      obtain ⟨hlength, hsteps⟩ := Sequence.survey_literal c _ b (Plan.forDepth c d).looped
      refine ⟨_, hend, rfl, rfl, hlength, rfl, ?_, hs⟩
      rw [hsteps, Plan.looped_forDepth]
      simp only [decide_eq_true_eq]
    · rintro ⟨e, he, hreq, hexp, -, hlooped, -, hwalk⟩
      rw [walkDepth_eq he, ← hlooped, hwalk, ← hreq, ← hexp]
      rfl
  · refine ⟨walkBudget_value c hb, fun r h => ?_⟩
    rw [walkBudget_value c hb, walkDepth_eq (expand_endsAt c _)] at h
    obtain ⟨s, hs, rfl⟩ := map_eq_ok_iff.mp h
    obtain rfl := Sequence.eq_survey_of_walk hs
    rw [Plan.forBudget, Plan.requestedDepth_forDepth]
    rfl

/-! ### Reports of full range -/

section

variable {c : Settings} {d e : ℕ}

/-- Below the threshold the report of a depth is read off the dragon. -/
theorem walkDepth_of_lt (hd : d < c.loopThresholdDepth) (he : c.EndsAt d e) (h61 : e ≤ 61) (b : ℕ) :
    (walkDepth c d b).value = .ok
      { finalPosition := Route.place dragon (min b (2 ^ e))
        totalSteps := min b (2 ^ e)
        waypoints := Route.waypoints dragon (c.records b false) (min b (2 ^ e))
        sequenceLength := 2 ^ (e + 2) - 2
        looped := false
        requestedDepth := some d
        expandedDepth := some e } := by
  rw [walkDepth_eq_of_lt hd he, ← Sequence.rounds_seed_eq_literal,
    Sequence.walk_rounds_seed_eq c h61, Sequence.length_rounds_seed]
  rfl

/-- From the threshold on it is read off the orbit, if there is a round. -/
theorem walkDepth_of_ge (hd : c.loopThresholdDepth ≤ d)
    (he : c.EndsAt (min d c.practicalDepthCap) e) (h1 : 1 ≤ e) (h61 : e ≤ 61) (b : ℕ) :
    (walkDepth c d b).value = .ok
      { finalPosition := (orbit e).place b
        totalSteps := b
        waypoints := (orbit e).waypoints (c.records b true) b
        sequenceLength := 2 ^ (e + 2) - 2
        looped := true
        requestedDepth := some d
        expandedDepth := some e } := by
  rw [walkDepth_eq_of_ge hd he, ← Sequence.rounds_seed_eq_literal,
    Sequence.walk_rounds_seed_looped_eq c h1 h61, Sequence.length_rounds_seed]
  rfl

end

end DragonCurve

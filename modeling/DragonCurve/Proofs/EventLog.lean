import DragonCurve.Proofs.ClosedForm

/-! What a run leaves in the log. An expansion tells its rounds in order, the first with their
text, the next with their length and all later ones not at all, and then the cutoff if it
tripped, also where that was at the last round and nothing was cut off. The walk over an
expansion tells nothing of its own: every expansion has a move, so no cyclic walk over one is
given up. Around it stand the event that names what is walked and, if the walk ends, the one
that says where. So the log of a depth or a budget is known from the settings and the depth
that was reached, line by line. -/

namespace DragonCurve

namespace Expansion

/-! ### Rounds -/

/-- How a round is told, if it is told. -/
def roundEvent (round : ℕ) (s : Sequence) : Event :=
  if round ≤ lastTextRound then .roundText round s.text else .roundLength round s.length

theorem roundEvents_eq (round : ℕ) (s : Sequence) :
    roundEvents round s = if round ≤ lastReportedRound then [roundEvent round s] else [] := by
  unfold roundEvents roundEvent
  by_cases htext : round ≤ lastTextRound
  · rw [if_pos htext, if_pos htext, if_pos (htext.trans (by decide))]
  · rw [if_neg htext, if_neg htext]

/-- Of the rounds up to `e`, those up to the last reported one are told, each once. -/
theorem flatMap_roundEvents (s : ℕ → Sequence) (e : ℕ) :
    (List.range (e + 1)).flatMap (fun i => roundEvents i (s i)) =
      (List.range (min e lastReportedRound + 1)).map fun i => roundEvent i (s i) := by
  induction e with
  | zero => rfl
  | succ e ih =>
    rw [List.range_succ, List.flatMap_append, ih, List.flatMap_singleton, roundEvents_eq]
    split_ifs with hlast
    · rw [Nat.min_eq_left hlast, Nat.min_eq_left (by omega), List.range_succ (n := e + 1),
        List.map_append]
      rfl
    · rw [Nat.min_eq_right (by omega), Nat.min_eq_right (by omega), List.append_nil]

/-- What is told of the cutoff at the end of an expansion. -/
def cutoffEvents (c : Settings) (requested round length : ℕ) : List Event :=
  if 1 ≤ round ∧ c.cutsOff round length then [.cutoff round length requested] else []

/-- Growing from round `round` of a sequence, where nothing is told of the cutoff, tells the
rounds that it adds and then what there is to tell of the cutoff at the last of them. -/
theorem events_grow (c : Settings) (requested n round : ℕ) (s : Sequence)
    (h : cutoffEvents c requested round (s.rounds round).length = []) :
    ∃ m, (grow c requested n round (s.rounds round)).value.depthReached = round + m ∧
      (grow c requested n round (s.rounds round)).events =
        (List.range' (round + 1) m).flatMap (fun i => roundEvents i (s.rounds i)) ++
          cutoffEvents c requested (round + m) (s.rounds (round + m)).length := by
  induction n generalizing round with
  | zero => exact ⟨0, rfl, h.symm⟩
  | succ n ih =>
    have hround : (s.rounds round).next = s.rounds (round + 1) := (s.rounds_succ round).symm
    simp only [grow, hround, Logged.value_bind, Logged.events_bind, Logged.events_reportAll]
    split
    next hcut =>
      refine ⟨1, rfl, ?_⟩
      rw [cutoffEvents, if_pos ⟨Nat.le_add_left 1 round, hcut⟩]
      simp
    next hcut =>
      obtain ⟨m, hreached, hevents⟩ := ih (round + 1) (if_neg fun htrip => hcut htrip.2)
      have hm : round + (m + 1) = round + 1 + m := by omega
      refine ⟨m + 1, hreached.trans hm.symm, ?_⟩
      rw [hm, List.range'_succ, List.flatMap_cons, List.append_assoc, ← hevents]
      simp

end Expansion

/-- An expansion tells its rounds and then what there is to tell of the cutoff. -/
theorem events_expand (c : Settings) (depth : ℕ) :
    let e := (expand c depth).value.depthReached
    (expand c depth).events =
      (List.range (min e Expansion.lastReportedRound + 1)).map
          (fun i => Expansion.roundEvent i (Sequence.seed.rounds i)) ++
        Expansion.cutoffEvents c depth e (Sequence.seed.rounds e).length := by
  intro e
  obtain ⟨m, hreached, hevents⟩ := Expansion.events_grow c depth depth 0 .seed rfl
  simp only [Nat.zero_add, Sequence.rounds_zero] at hreached hevents
  have he : e = m := hreached
  rw [he, ← Expansion.flatMap_roundEvents (fun i => Sequence.seed.rounds i), List.range_eq_range',
    List.range'_succ, List.flatMap_cons, List.append_assoc, ← hevents]
  rfl

/-! ### Walks -/

/-- A walk over the expanded seed tells nothing, as there is always a move to make. -/
theorem Sequence.events_walk_rounds_seed (c : Settings) (e b : ℕ) (looped : Bool) :
    ((seed.rounds e).walk c b looped).events = [] := by
  have hmoves : Walk.abandons (seed.rounds e).actions b looped = false := by
    simp [Walk.abandons, count_rounds_seed]
  rw [walk_eq, hmoves]
  rfl

/-- What is told at the end of a walk that ends. -/
def endEvents : Except Fault Report → List Event
  | .ok r => [.finished r.finalPosition.x r.finalPosition.y r.totalSteps]
  | .error _ => []

theorem events_walkDepth (c : Settings) (d b : ℕ) :
    let plan := Plan.forDepth c d
    let e := (expand c plan.expansionDepth).value.depthReached
    (walkDepth c d b).events = (expand c plan.expansionDepth).events ++
      .walking d e (Sequence.seed.rounds e).length plan.looped b ::
        endEvents (walkDepth c d b).value := by
  intro plan e
  have hseq : (expand c plan.expansionDepth).value.sequence = Sequence.seed.rounds e :=
    expand_sequence c _
  have hquiet := Sequence.events_walk_rounds_seed c e b plan.looped
  rw [walkDepth]
  simp only [Logged.events_bind, Logged.value_bind, Logged.events_report, hseq, hquiet,
    List.nil_append, e, plan]
  -- only a walk that ends has an event left
  split
  next => rfl
  next => rfl

theorem events_walkBudget (c : Settings) {b : ℕ} (hb : 1 ≤ b) : (walkBudget c b).events =
    .computing b (c.effectiveDepth b) :: (walkDepth c (c.effectiveDepth b) b).events := by
  rw [walkBudget, if_neg (by omega)]
  rfl

/-! ### Cyclic walks that are given up -/

theorem Expansion.roundEvent_ne_abandoned (round : ℕ) (s : Sequence) (b : ℕ) :
    roundEvent round s ≠ .abandoned b := by
  unfold roundEvent
  split_ifs <;> exact Event.noConfusion

theorem abandoned_not_mem_walkDepth (c : Settings) (d b b' : ℕ) :
    .abandoned b' ∉ (walkDepth c d b).events := by
  rw [events_walkDepth, events_expand]
  cases (walkDepth c d b).value <;>
    simp [endEvents, Expansion.cutoffEvents, Expansion.roundEvent_ne_abandoned]

theorem abandoned_not_mem_walkBudget (c : Settings) (b b' : ℕ) :
    .abandoned b' ∉ (walkBudget c b).events := by
  rcases Nat.eq_zero_or_pos b with rfl | hb
  · exact List.not_mem_nil
  · rw [events_walkBudget c hb, List.mem_cons, not_or]
    exact ⟨Event.noConfusion, abandoned_not_mem_walkDepth c _ b b'⟩

/-! ### Lines of the log -/

/-- The events of a computation as they are written. -/
def Logged.log {α : Type} (x : Logged α) : List Json := x.events.map Event.toJson

/-- The line of the log with this level and message and these values. -/
def logLine (level message : String) (fields : List (String × Json)) : Json :=
  .obj [("level", .str level), ("fields", .obj (("message", .str message) :: fields))]

theorem toJson_roundEvent (i : ℕ) :
    (Expansion.roundEvent i (Sequence.seed.rounds i)).toJson = logLine "DEBUG" "dragon round"
      [("round", .int i), if i ≤ 5 then ("sequence", .str (Sequence.literal i).text)
        else ("length", .int (2 ^ (i + 2) - 2 : ℕ))] := by
  rw [Expansion.roundEvent, Sequence.length_rounds_seed, Sequence.rounds_seed_eq_literal]
  unfold Expansion.lastTextRound
  split_ifs <;> rfl

theorem map_toJson_cutoffEvents (c : Settings) (requested e : ℕ) :
    (Expansion.cutoffEvents c requested e (Sequence.seed.rounds e).length).map Event.toJson =
      if 1 ≤ e ∧ e < c.cutoffRoundLimit ∧ c.cutoffLength < 2 ^ (e + 2) - 2 then
        [logLine "WARN" "sequence exceeded the safety cutoff, stopping early"
          [("round", .int e), ("length", .int (2 ^ (e + 2) - 2 : ℕ)),
            ("requested", .int requested)]]
      else [] := by
  simp only [Expansion.cutoffEvents, Settings.cutsOff_rounds_seed]
  rw [Sequence.length_rounds_seed]
  split_ifs <;> rfl

/-- The log of a run, line by line. The walk of a depth, if it ends, has told its rounds up to
round ten, up to round five with their text and from then on with their length; then, if the
last round that was made trips the cutoff, that it does, with the depth that the expansion was
given; then what is walked, and where the walk ended. The walk of a budget has told its depth
before all this, and nothing at all if the budget is empty. Whether it ends or not, no run has
told that a cyclic walk was given up. -/
theorem walk_log (c : Settings) (b : ℕ) :
    let length (i : ℕ) : ℕ := 2 ^ (i + 2) - 2
    (∀ d r, (walkDepth c d b).value = .ok r → ∃ e, r.expandedDepth = some e ∧
      (walkDepth c d b).log =
        ((List.range (min e 10 + 1)).map fun i : ℕ => logLine "DEBUG" "dragon round"
          [("round", .int i), if i ≤ 5 then ("sequence", .str (Sequence.literal i).text)
            else ("length", .int (length i))]) ++
        (if 1 ≤ e ∧ e < c.cutoffRoundLimit ∧ c.cutoffLength < length e then
          [logLine "WARN" "sequence exceeded the safety cutoff, stopping early"
            [("round", .int e), ("length", .int (length e)), ("requested",
              .int (if c.loopThresholdDepth ≤ d then min d c.practicalDepthCap else d : ℕ))]]
        else []) ++
        [logLine "INFO" "walking dragon sequence"
          [("requested_depth", .int d), ("expanded_depth", .int e), ("length", .int (length e)),
            ("looped", .bool (c.loopThresholdDepth ≤ d)), ("step_budget", .int b)],
        logLine "DEBUG" "dragon walk finished"
          [("x", .int r.finalPosition.x), ("y", .int r.finalPosition.y),
            ("total_steps", .int r.totalSteps)]]) ∧
    (1 ≤ b → (walkBudget c b).log =
      logLine "INFO" "computing dragon path"
        [("step_budget", .int b), ("depth", .int (c.effectiveDepth b))] ::
      (walkDepth c (c.effectiveDepth b) b).log) ∧
    (walkBudget c 0).log = [] ∧
    ∀ d b', .abandoned b' ∉ (walkDepth c d b).events ∧
      .abandoned b' ∉ (walkBudget c b).events := by
  intro length
  refine ⟨fun d r hr => ?_, fun hb => ?_, rfl, fun d b' =>
    ⟨abandoned_not_mem_walkDepth c d b b', abandoned_not_mem_walkBudget c b b'⟩⟩
  · have hvalue := hr
    rw [walkDepth_value] at hvalue
    obtain ⟨s, -, rfl⟩ := map_eq_ok_iff.mp hvalue
    refine ⟨_, rfl, ?_⟩
    rw [Logged.log, events_walkDepth, events_expand, hr, List.map_append, List.map_append,
      map_toJson_cutoffEvents, List.map_map, Sequence.length_rounds_seed,
      ← Plan.expansionDepth_forDepth, ← Plan.looped_forDepth]
    simp only [Function.comp_def, toJson_roundEvent]
    rfl
  · rw [Logged.log, events_walkBudget c hb]
    rfl

/-- A cyclic walk over two rounds that stands for depth five. The second round trips the
cutoff, although it is the last that was to be made. -/
theorem walk_log_two :
    let c : Settings :=
      { cutoffLength := 13, loopThresholdDepth := 1, practicalDepthCap := 2, smallBudgetDepth := 5 }
    let r : Report :=
      { finalPosition := ⟨1, 0⟩, totalSteps := 3, sequenceLength := 14, looped := true,
        waypoints := [⟨1, ⟨0, 1⟩, .north⟩, ⟨2, ⟨1, 1⟩, .east⟩, ⟨3, ⟨1, 0⟩, .south⟩],
        requestedDepth := some 5, expandedDepth := some 2 }
    let lines := [
      logLine "DEBUG" "dragon round" [("round", .int 0), ("sequence", .str "Fa")],
      logLine "DEBUG" "dragon round" [("round", .int 1), ("sequence", .str "FaRbFR")],
      logLine "DEBUG" "dragon round" [("round", .int 2), ("sequence", .str "FaRbFRRLFaLbFR")],
      logLine "WARN" "sequence exceeded the safety cutoff, stopping early"
        [("round", .int 2), ("length", .int 14), ("requested", .int 2)],
      logLine "INFO" "walking dragon sequence"
        [("requested_depth", .int 5), ("expanded_depth", .int 2), ("length", .int 14),
          ("looped", .bool true), ("step_budget", .int 3)],
      logLine "DEBUG" "dragon walk finished"
        [("x", .int 1), ("y", .int 0), ("total_steps", .int 3)]]
    ((walkDepth c 5 3).value = .ok r ∧ 1 ≤ 3) ∧ (walkDepth c 5 3).log = lines ∧
      (walkBudget c 3).log =
        logLine "INFO" "computing dragon path" [("step_budget", .int 3), ("depth", .int 5)] ::
          lines := by
  intro c r lines
  have hr : (walkDepth c 5 3).value = .ok r := by decide +kernel
  obtain ⟨hdepth, hbudget, -⟩ := walk_log c 3
  obtain ⟨e, he, hlog⟩ := hdepth 5 r hr
  obtain rfl : 2 = e := Option.some.inj he
  have hlines : (walkDepth c 5 3).log = lines := hlog.trans rfl
  refine ⟨⟨hr, by decide⟩, hlines, ?_⟩
  rw [← hlines]
  exact hbudget (by decide)

end DragonCurve

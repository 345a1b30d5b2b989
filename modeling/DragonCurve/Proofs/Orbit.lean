import DragonCurve.Proofs.Depths
import DragonCurve.Proofs.Reckoning
import DragonCurve.Proofs.Refinement

/-! The closed orbit of the dragon. The dragon is its own refinement. Walked
round and round from the first round on, the expanded seed adds half a turn with
every pass, so its second pass leads back to the origin; and the orbit of each
depth refines that of the depth before, down to a unit square. Hence no segment
of the orbit is drawn twice, and its extent stays within the range of
coordinates for every depth that could be expanded. The walks are at the places
reckoned from the expanded text, which are those of the dragon and of its orbit. -/

namespace DragonCurve

theorem dragon_refinedBy : Route.RefinedBy dragon dragon :=
  fun k => ⟨dragon_two_mul k, dragon_two_mul_add_one k⟩

/-- The dragon never draws a segment twice. -/
theorem dragon_segment_injOn (n : ℕ) : Set.InjOn (Route.segment dragon) (Set.Iio (2 ^ n)) := by
  induction n with
  | zero =>
    intro k hk l hl _
    simp only [pow_zero, Set.mem_Iio] at hk hl
    omega
  | succ n ih =>
    rw [pow_succ, Nat.mul_comm]
    exact dragon_refinedBy.segment_injOn ih

/-! ### Round and round -/

/-- The first `2 ^ d` moves of the dragon, repeated with half a turn each time. -/
def orbit (d : ℕ) : Route := fun k => dragon (k % 2 ^ d) + (k / 2 ^ d : ℕ) * 2

theorem orbit_of_lt {d k : ℕ} (h : k < 2 ^ d) : orbit d k = dragon k := by
  simp [orbit, Nat.mod_eq_of_lt h, Nat.div_eq_of_lt h]

/-- From the first round on, the expanded seed is walked round and round along
the orbit. -/
theorem route_rounds_seed_eq_orbit (d : ℕ) :
    route (Sequence.seed.rounds (d + 1)).actions = orbit (d + 1) := by
  funext k
  have hk : k % 2 ^ (d + 1) < 2 ^ (d + 1) := Nat.mod_lt _ (Nat.two_pow_pos _)
  rw [route, Sequence.count_rounds_seed, Sequence.turning_rounds_seed,
    Sequence.bearings_rounds_seed, List.getD_eq_getElem?_getD, List.getElem?_map,
    List.getElem?_range hk]
  rfl

theorem orbit_repeats (d : ℕ) : (orbit (d + 1)).Repeats (2 ^ (d + 1)) 2 := by
  have hcount := Sequence.count_rounds_seed (d + 1)
  have h := @route_repeats (Sequence.seed.rounds (d + 1)).actions
    (by rw [hcount]; exact Nat.two_pow_pos _)
  rwa [hcount, Sequence.turning_rounds_seed, route_rounds_seed_eq_orbit] at h

/-- The place on the orbit, by the moves left after whole turns of two passes:
the first pass is the dragon's, and the second leads back. -/
theorem orbit_place (d k : ℕ) : (orbit (d + 1)).place k =
    if k % 2 ^ (d + 2) ≤ 2 ^ (d + 1) then Route.place dragon (k % 2 ^ (d + 2))
    else Route.place dragon (2 ^ (d + 1)) -
      Route.place dragon (k % 2 ^ (d + 2) - 2 ^ (d + 1)) := by
  have hpow : 2 ^ (d + 2) = 2 * 2 ^ (d + 1) := by rw [pow_succ, Nat.mul_comm]
  have hfirst : ∀ j ≤ 2 ^ (d + 1), (orbit (d + 1)).place j = Route.place dragon j :=
    Route.place_congr fun j hj => orbit_of_lt hj
  have hlt : k % 2 ^ (d + 2) < 2 ^ (d + 2) := Nat.mod_lt _ (Nat.two_pow_pos _)
  rw [← Route.place_mod (orbit_repeats d), ← hpow]
  split
  next hle => exact hfirst _ hle
  next hgt =>
    obtain ⟨j, hj⟩ : ∃ j, k % 2 ^ (d + 2) = 2 ^ (d + 1) + j := Nat.exists_eq_add_of_le (by omega)
    rw [hj, Route.place_add_half (orbit_repeats d), hfirst _ le_rfl, hfirst j (by omega),
      Nat.add_sub_cancel_left]

theorem orbit_refinedBy (d : ℕ) : (orbit (d + 1)).RefinedBy (orbit (d + 2)) := by
  intro k
  -- the passes have even length, so the parity of a move is that within its pass
  have hpow : 2 ^ (d + 1) = 2 * 2 ^ d := by rw [pow_succ, Nat.mul_comm]
  have hpar : k % 2 ^ (d + 1) % 2 = k % 2 := Nat.mod_mod_of_dvd k ⟨2 ^ d, hpow⟩
  have hfine : 2 ^ (d + 2) = 2 * 2 ^ (d + 1) := by rw [pow_succ, Nat.mul_comm]
  have hpos := Nat.two_pow_pos (d + 1)
  constructor
  · simp only [orbit, hfine, Nat.mul_mod_mul_left, dragon_two_mul, hpar,
      Nat.mul_div_mul_left k _ (by omega : 0 < 2)]
    ring
  · have hmod : (2 * k + 1) % (2 * 2 ^ (d + 1)) = 2 * (k % 2 ^ (d + 1)) + 1 := by
      rw [Nat.mod_mul, show (2 * k + 1) % 2 = 1 by omega, show (2 * k + 1) / 2 = k by omega]
      omega
    have hdiv : (2 * k + 1) / (2 * 2 ^ (d + 1)) = k / 2 ^ (d + 1) := by
      rw [← Nat.div_div_eq_div_mul, show (2 * k + 1) / 2 = k by omega]
    have hpar' : (k % 2 ^ (d + 1) + 1) % 2 = (k + 1) % 2 := by omega
    simp only [orbit, hfine, hmod, dragon_two_mul_add_one, hdiv, hpar']
    ring

/-- The orbit of the first round is a unit square. -/
theorem orbit_one_place (k : ℕ) : (orbit 1).place k = (orbit 1).place (k % 4) :=
  (Route.place_mod (orbit_repeats 0) k).symm

theorem orbit_segment_injOn (d : ℕ) :
    Set.InjOn (orbit (d + 1)).segment (Set.Iio (2 ^ (d + 2))) := by
  induction d with
  | zero =>
    have hsquare : ∀ k < 4, ∀ l < 4, (orbit 1).segment k = (orbit 1).segment l → k = l := by
      decide +kernel
    exact fun k hk l hl e => hsquare k hk l hl e
  | succ d ih =>
    rw [pow_succ, Nat.mul_comm]
    exact (orbit_refinedBy d).segment_injOn ih

/-- The extent of the orbit doubles with every second round. -/
theorem orbit_bounded : ∀ d : ℕ, (orbit (d + 1)).Bounded (2 ^ ((d + 1) / 2 + 1) - 1)
  | 0 => by
    have hsquare : ∀ k < 4, ((orbit 1).place k).Within 1 := by decide +kernel
    intro k
    rw [orbit_one_place]
    exact hsquare _ (Nat.mod_lt k (by omega))
  | 1 => (orbit_refinedBy 0).bounded (orbit_bounded 0)
  | d + 2 => by
    have h := (orbit_refinedBy d).bounded_twice (orbit_refinedBy (d + 1)) (orbit_bounded d)
    convert h using 1
    rw [show (d + 2 + 1) / 2 + 1 = (d + 1) / 2 + 1 + 1 by omega, pow_succ]
    ring

theorem orbit_safe {d : ℕ} (h : d ≤ 60) (n : ℕ) : (orbit (d + 1)).Safe n := by
  intro k _
  refine (orbit_bounded d k).inRange ?_
  have hpow : (2 : ℤ) ^ ((d + 1) / 2 + 1) ≤ 2 ^ 31 :=
    pow_le_pow_right₀ (by omega) (by omega)
  omega

/-- The dragon stays in range for as long as any orbit of that length does. -/
theorem dragon_safe {n : ℕ} (h : n ≤ 2 ^ 61) : Route.Safe dragon n := by
  intro k hk
  rw [← Route.place_congr (n := 2 ^ 61) (fun k hk => orbit_of_lt hk) k (hk.trans h)]
  exact orbit_safe le_rfl k k le_rfl

/-! ### Walks over the expanded seed -/

namespace Sequence

/-- The report of a walk once over the expanded seed: the turtle makes moves of
the dragon. -/
theorem walk_rounds_seed_eq (c : Settings) {d : ℕ} (hd : d ≤ 61) (budget : ℕ) :
    ((seed.rounds d).walk c budget false).value = .ok
      { finalPosition := Route.place dragon (min budget (2 ^ d))
        totalSteps := min budget (2 ^ d)
        waypoints := Route.waypoints dragon (c.records budget false) (min budget (2 ^ d))
        sequenceLength := (seed.rounds d).length
        looped := false } := by
  have hn := moveCount_rounds_seed d budget false
  rw [if_neg Bool.false_ne_true] at hn
  have hroute : ∀ k < min budget (2 ^ d), route (seed.rounds d).actions k = dragon k :=
    fun k hk => route_rounds_seed (by omega)
  have hp := Route.place_congr hroute
  have hpow : 2 ^ d ≤ 2 ^ 61 := Nat.pow_le_pow_right (by omega) hd
  rw [walk_of_safe, survey, hn, hp _ le_rfl, Route.waypoints_congr hroute]
  intro k hk
  rw [hn] at hk
  rw [hp k hk]
  exact dragon_safe hpow k (by omega)

/-- The report of a walk round and round over the expanded seed: the turtle makes
moves of the orbit for as long as the budget lasts. -/
theorem walk_rounds_seed_looped_eq (c : Settings) {d : ℕ} (h1 : 1 ≤ d) (hd : d ≤ 61)
    (budget : ℕ) :
    ((seed.rounds d).walk c budget true).value = .ok
      { finalPosition := (orbit d).place budget
        totalSteps := budget
        waypoints := (orbit d).waypoints (c.records budget true) budget
        sequenceLength := (seed.rounds d).length
        looped := true } := by
  obtain ⟨e, rfl⟩ : ∃ e, d = e + 1 := ⟨d - 1, by omega⟩
  have hn := moveCount_rounds_seed (e + 1) budget true
  rw [if_pos rfl] at hn
  rw [walk_of_safe, survey, hn, route_rounds_seed_eq_orbit]
  rw [route_rounds_seed_eq_orbit]
  exact orbit_safe (by omega) _

/-- The places reckoned from the expanded seed are the dragon's. -/
theorem reckonedPlace_rounds_seed (d k : ℕ) :
    reckonedPlace (seed.rounds d).text.toList k = Route.place dragon (min k (2 ^ d)) := by
  rw [reckonedPlace_text, count_rounds_seed]
  exact Route.place_congr (fun j hj => route_rounds_seed hj) _ (Nat.min_le_right _ _)

/-- The places reckoned round and round the expanded seed are those of the orbit. -/
theorem cyclicPlace_rounds_seed {d : ℕ} (h1 : 1 ≤ d) :
    cyclicPlace (seed.rounds d).text.toList = (orbit d).place := by
  obtain ⟨e, rfl⟩ : ∃ e, d = e + 1 := ⟨d - 1, by omega⟩
  rw [cyclicPlace_text, route_rounds_seed_eq_orbit]
  rw [count_rounds_seed]
  exact Nat.two_pow_pos _

theorem walk_rounds_seed (c : Settings) {d : ℕ} (hd : d ≤ 61) (budget : ℕ) :
    ∃ r, ((seed.rounds d).walk c budget false).value = .ok r ∧
      r.totalSteps = min budget (2 ^ d) ∧
        r.finalPosition = reckonedPlace (seed.rounds d).text.toList budget :=
  ⟨_, walk_rounds_seed_eq c hd budget, rfl, (reckonedPlace_rounds_seed d budget).symm⟩

theorem walk_rounds_seed_looped (c : Settings) {d : ℕ} (h1 : 1 ≤ d) (hd : d ≤ 61) (budget : ℕ) :
    ∃ r, ((seed.rounds d).walk c budget true).value = .ok r ∧ r.totalSteps = budget ∧
      r.finalPosition = cyclicPlace (seed.rounds d).text.toList budget :=
  ⟨_, walk_rounds_seed_looped_eq c h1 hd budget, rfl,
    (congrFun (cyclicPlace_rounds_seed h1) budget).symm⟩

end Sequence

/-- No walk over an expansion that is not cut off draws a segment twice: neither
once over it, nor in the first two passes round and round. Here `P` and `Q` give the
places reckoned from its text, at which the walks end. -/
theorem walk_segments_injOn {c : Settings} {d : ℕ} (hd : d ≤ 59)
    (hfull : (expand c d).value.truncated = false) :
    let s := (expand c d).value.sequence
    let P := reckonedPlace s.text.toList
    let Q := cyclicPlace s.text.toList
    (P 0 = .origin ∧
      (∀ c' k, ∃ r, (s.walk c' k false).value = .ok r ∧ r.totalSteps = min k (2 ^ d) ∧
        r.finalPosition = P k) ∧
      Set.InjOn (fun k => s(P (k - 1), P k)) (Set.Icc 1 (2 ^ d))) ∧
    (1 ≤ d → Q 0 = .origin ∧
      (∀ c' k, ∃ r, (s.walk c' k true).value = .ok r ∧ r.totalSteps = k ∧
        r.finalPosition = Q k) ∧
      Set.InjOn (fun k => s(Q (k - 1), Q k)) (Set.Icc 1 (2 ^ (d + 1)))) := by
  intro s
  have hs : s = Sequence.seed.rounds d := expand_sequence_of_full hfull
  rw [hs]
  intro P Q
  refine ⟨⟨reckonedPlace_zero _, fun c' k => Sequence.walk_rounds_seed c' (by omega) k, ?_⟩,
    fun h1 => ⟨reckonedPlace_zero _,
      fun c' k => Sequence.walk_rounds_seed_looped c' h1 (by omega) k, ?_⟩⟩
  · refine Route.injOn_of_segment (fun k hk => ?_) (dragon_segment_injOn d)
    simp only [P, Sequence.reckonedPlace_rounds_seed, Nat.min_eq_left hk]
  · obtain ⟨e, rfl⟩ : ∃ e, d = e + 1 := ⟨d - 1, by omega⟩
    refine Route.injOn_of_segment (fun k _ => ?_) (orbit_segment_injOn e)
    simp only [Q, Sequence.cyclicPlace_rounds_seed h1]

/-- A cutoff at the last round does not count. -/
theorem walk_segments_injOn_three :
    let c : Settings := { cutoffLength := 20 }
    (3 ≤ 59 ∧ (expand c 3).value.truncated = false) ∧
      let s := (expand c 3).value.sequence
      let P := reckonedPlace s.text.toList
      let Q := cyclicPlace s.text.toList
      (P 0 = .origin ∧
        (∀ c' k, ∃ r, (s.walk c' k false).value = .ok r ∧ r.totalSteps = min k (2 ^ 3) ∧
          r.finalPosition = P k) ∧
        Set.InjOn (fun k => s(P (k - 1), P k)) (Set.Icc 1 (2 ^ 3))) ∧
      (1 ≤ 3 → Q 0 = .origin ∧
        (∀ c' k, ∃ r, (s.walk c' k true).value = .ok r ∧ r.totalSteps = k ∧
          r.finalPosition = Q k) ∧
        Set.InjOn (fun k => s(Q (k - 1), Q k)) (Set.Icc 1 (2 ^ (3 + 1)))) := by
  intro c
  have hfull : (expand c 3).value.truncated = false := by decide
  exact ⟨⟨by decide, hfull⟩, walk_segments_injOn (by decide) hfull⟩

/-- Walked round and round, an expansion that is not cut off and has a round is a
closed orbit: every budget is spent, the place is reckoned from the text and depends on
the budget modulo two passes only, and the second pass is the first turned by half a
turn, as one pass has a net turn of two. -/
theorem walk_closed_orbit {c : Settings} {d : ℕ} (h1 : 1 ≤ d) (hd : d ≤ 59)
    (hfull : (expand c d).value.truncated = false) :
    let s := (expand c d).value.sequence
    let P := cyclicPlace s.text.toList
    netTurn s.symbols = 2 ∧
      (∀ c' budget, ∃ r, (s.walk c' budget true).value = .ok r ∧ r.totalSteps = budget ∧
        r.finalPosition = P budget) ∧
      (∀ budget, P budget = P (budget % 2 ^ (d + 1))) ∧
      P (2 ^ (d + 1)) = .origin ∧
      ∀ j ≤ 2 ^ d, P (2 ^ d + j) = P (2 ^ d) - P j := by
  intro s
  have hs : s = Sequence.seed.rounds d := expand_sequence_of_full hfull
  rw [hs]
  intro P
  have hP : P = (orbit d).place := Sequence.cyclicPlace_rounds_seed h1
  obtain ⟨e, rfl⟩ : ∃ e, d = e + 1 := ⟨d - 1, by omega⟩
  have hpow : 2 ^ (e + 1 + 1) = 2 * 2 ^ (e + 1) := by rw [pow_succ, Nat.mul_comm]
  refine ⟨?_, fun c' budget => Sequence.walk_rounds_seed_looped c' h1 (by omega) budget,
    fun budget => ?_, ?_, fun j _ => ?_⟩
  · rw [← turning_map_action]
    exact Sequence.turning_rounds_seed e
  · rw [hP, hpow, Route.place_mod (orbit_repeats e)]
  · rw [hP, hpow, Route.place_two_mul (orbit_repeats e)]
  · rw [hP, Route.place_add_half (orbit_repeats e)]

/-- The orbit closes after a cutoff at the last round, too. -/
theorem walk_closed_orbit_three :
    let c : Settings := { cutoffLength := 20 }
    (1 ≤ 3 ∧ 3 ≤ 59 ∧ (expand c 3).value.truncated = false) ∧
      let s := (expand c 3).value.sequence
      let P := cyclicPlace s.text.toList
      netTurn s.symbols = 2 ∧
        (∀ c' budget, ∃ r, (s.walk c' budget true).value = .ok r ∧ r.totalSteps = budget ∧
          r.finalPosition = P budget) ∧
        (∀ budget, P budget = P (budget % 2 ^ (3 + 1))) ∧
        P (2 ^ (3 + 1)) = .origin ∧
        ∀ j ≤ 2 ^ 3, P (2 ^ 3 + j) = P (2 ^ 3) - P j := by
  intro c
  have hfull : (expand c 3).value.truncated = false := by decide
  exact ⟨⟨by decide, by decide, hfull⟩, walk_closed_orbit (by decide) (by decide) hfull⟩

end DragonCurve

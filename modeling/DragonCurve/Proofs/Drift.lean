import DragonCurve.Proofs.Reckoning

/-! The long run of cyclic walks. Every pass over a sequence makes the moves of the pass
before, turned by the turning of the sequence. A turning by whole turns leaves the frame
as it is, so the walk drifts by the same displacement with every pass; half a turn makes
the second pass undo the first, and a quarter turn makes four passes close. A walk that
closes has met all its places after four passes, so it is in range for good if these are;
a walk that drifts leaves the range at last. -/

namespace DragonCurve

namespace Route

variable {t : Route} {m : ℕ} {r : ℤ}

theorem Repeats.twice (h : t.Repeats m r) : t.Repeats (2 * m) (2 * r) := by
  intro k
  rw [Nat.two_mul, Nat.add_assoc, h, h]
  ring

/-! ### Whole turns -/

theorem place_add_whole (h : t.Repeats m r) (hr : r % 4 = 0) (k : ℕ) :
    t.place (m + k) = t.place m + t.place k := by
  rw [place_add h, Heading.north.rotate_congr (n := 0) hr, Heading.rotate_zero]
  rfl

/-- With whole turns the places drift by the displacement of a pass. -/
theorem place_passes (h : t.Repeats m r) (hr : r % 4 = 0) (p : ℕ) :
    t.place (p * m) = ⟨p * (t.place m).x, p * (t.place m).y⟩ := by
  induction p with
  | zero =>
    rw [Nat.zero_mul, place_zero]
    ext <;> simp
  | succ p ih =>
    rw [Nat.succ_mul, Nat.add_comm, place_add_whole h hr, ih]
    ext <;> push_cast <;> simp only [Point.x_add, Point.y_add] <;> ring

/-- A drift leaves the range within `2 ^ 31 + 1` passes, as one coordinate changes by one
at least with each of them. -/
theorem not_inRange_of_drift (h : t.Repeats m r) (hr : r % 4 = 0) (hv : t.place m ≠ .origin) :
    ¬ (t.place ((2 ^ 31 + 1) * m)).InRange := by
  have hne : (t.place m).x ≠ 0 ∨ (t.place m).y ≠ 0 := by
    by_contra hzero
    rw [not_or, not_not, not_not] at hzero
    exact hv (Point.ext hzero.1 hzero.2)
  rw [place_passes h hr, Point.InRange]
  push_cast
  omega

/-! ### Closed walks -/

theorem periodic_of_quarter (h : t.Repeats m r) (hr : r % 4 = 1 ∨ r % 4 = 3) :
    Function.Periodic t.place (4 * m) := by
  have hper := periodic_of_half h.twice (by omega)
  rwa [← Nat.mul_assoc] at hper

/-- Where no pass drifts, four passes close the walk. -/
theorem periodic_of_no_drift (h : t.Repeats m r) (hr : r % 4 ≠ 0 ∨ t.place m = .origin) :
    Function.Periodic t.place (4 * m) := by
  have hcases : r % 4 = 0 ∨ r % 4 = 2 ∨ r % 4 = 1 ∨ r % 4 = 3 := by omega
  rcases hcases with h0 | h2 | hquarter
  · have hclosed : Function.Periodic t.place m := by
      intro k
      rw [Nat.add_comm, place_add_whole h h0, hr.resolve_left (not_not.mpr h0)]
      ext <;> simp
    exact hclosed.nat_mul 4
  · have hper := (periodic_of_half h h2).nat_mul 2
    rwa [← Nat.mul_assoc] at hper
  · exact periodic_of_quarter h hquarter

/-- A closed walk that leaves the range does so within its first period. -/
theorem not_safe_of_periodic {p n : ℕ} (hp : 0 < p) (hper : Function.Periodic t.place p)
    (h : ¬ t.Safe n) : ∃ k ≤ n, k ≤ p ∧ ¬ t.Safe k := by
  obtain ⟨k, hk, hout⟩ := not_safe_iff.mp h
  rw [← hper.map_mod_nat] at hout
  exact ⟨k % p, (Nat.mod_le k p).trans hk, (Nat.mod_lt k hp).le,
    not_safe_iff.mpr ⟨_, le_rfl, hout⟩⟩

end Route

/-! ### Walks round and round a text -/

namespace Sequence

theorem walk_looped_overflow_iff {s : Sequence} (hf : 0 < s.actions.count .forward)
    (c : Settings) (b : ℕ) :
    (s.walk c b true).value = .error .overflow ↔ ¬ (route s.actions).Safe b := by
  have hn := moveCount_of_pos (b := b) hf
  rw [walk_eq, hn]
  dsimp only
  split_ifs with hsafe <;> simp [hsafe]

end Sequence

/-- The long run of a cyclic walk over a text with moves. Here `P` gives the places on a
grid without edges and `v` the displacement of the first pass. With whole turns every pass
adds `v`; with half a turn two passes close the walk, and with a quarter turn four. So a
walk without a drift that overflows on a budget of 64 bits does so within four passes, and
a walk with one overflows on such a budget, if a pass is not too long. -/
theorem walk_long_run {t : String} (hf : 1 ≤ t.toList.count 'F') (c : Settings) :
    let f := t.toList.count 'F'
    let r := ((t.toList.count 'R' : ℤ) - t.toList.count 'L') % 4
    let P := cyclicPlace t.toList
    let v := P f
    let walk b := ((Sequence.ofString t).walk c b true).value
    let overflows b := walk b = .error .overflow
    (∀ b, overflows b ↔ ∃ k ≤ b, ¬ (P k).InRange) ∧
    (∀ b w, walk b = .ok w → w.totalSteps = b ∧ w.finalPosition = P b) ∧
    (∀ b, (r = 0 → P (b + f) = P b + v) ∧ (r = 2 → P (b + 2 * f) = P b) ∧
      (r = 1 ∨ r = 3 → P (b + 4 * f) = P b)) ∧
    (r ≠ 0 ∨ v = .origin →
      ((∃ b < 2 ^ 64, overflows b) ↔ ∃ b < 2 ^ 64, b ≤ 4 * f ∧ overflows b)) ∧
    (r = 0 → v ≠ .origin → f ≤ 2 ^ 32 → ∃ b < 2 ^ 64, overflows b) := by
  intro f r P v walk overflows
  have hcount : (Sequence.ofString t).actions.count .forward = f :=
    Sequence.count_actions_ofString t
  have hpos : 0 < (Sequence.ofString t).actions.count .forward := hcount ▸ hf
  have hplace : P = (route (Sequence.ofString t).actions).place := Sequence.cyclicPlace_text hpos
  have hrepeats : (route (Sequence.ofString t).actions).Repeats f
      ((t.toList.count 'R' : ℤ) - t.toList.count 'L') := by
    rw [← hcount, ← Sequence.turning_ofString]
    exact route_repeats hpos
  have hover : ∀ b, overflows b ↔ ¬ (route (Sequence.ofString t).actions).Safe b :=
    Sequence.walk_looped_overflow_iff hpos c
  refine ⟨fun b => ?_, fun b w hw => ?_, fun b => ⟨fun h0 => ?_, fun h2 => ?_, fun hq => ?_⟩,
    fun hclosed => ⟨?_, ?_⟩, fun h0 hv hle => ?_⟩
  · rw [hover, Route.not_safe_iff, hplace]
  · obtain rfl := Sequence.eq_survey_of_walk hw
    have hn := Sequence.moveCount_of_pos (b := b) hpos
    simp only [Sequence.survey, hn, hplace]
    exact ⟨trivial, trivial⟩
  · rw [hplace, Nat.add_comm, Route.place_add_whole hrepeats h0]
    ext <;> simp [v, hplace, Int.add_comm]
  · rw [hplace, Route.periodic_of_half hrepeats h2]
  · rw [hplace, Route.periodic_of_quarter hrepeats hq]
  · rintro ⟨b, hb, ho⟩
    have hper := Route.periodic_of_no_drift hrepeats (by rwa [← hplace])
    obtain ⟨k, hkb, hk, hout⟩ := Route.not_safe_of_periodic (by omega) hper ((hover b).mp ho)
    exact ⟨k, by omega, hk, (hover k).mpr hout⟩
  · rintro ⟨b, hb, -, ho⟩
    exact ⟨b, hb, ho⟩
  · have hout := Route.not_inRange_of_drift hrepeats h0 (by rwa [← hplace])
    have hbudget : (2 ^ 31 + 1) * f ≤ (2 ^ 31 + 1) * 2 ^ 32 := Nat.mul_le_mul_left _ hle
    exact ⟨(2 ^ 31 + 1) * f, by omega, (hover _).mpr (Route.not_safe_iff.mpr ⟨_, le_rfl, hout⟩)⟩

/-- A text that turns left by a quarter in each pass of two moves, behind the last of them. -/
theorem walk_long_run_quarter :
    let t := "F𝄞FbL"
    let f := t.toList.count 'F'
    let r := ((t.toList.count 'R' : ℤ) - t.toList.count 'L') % 4
    let P := cyclicPlace t.toList
    let v := P f
    let walk b := ((Sequence.ofString t).walk .standard b true).value
    let overflows b := walk b = .error .overflow
    1 ≤ f ∧ (f = 2 ∧ r = 3 ∧ v = ⟨0, 2⟩) ∧
      (∀ b, overflows b ↔ ∃ k ≤ b, ¬ (P k).InRange) ∧
      (∀ b w, walk b = .ok w → w.totalSteps = b ∧ w.finalPosition = P b) ∧
      (∀ b, (r = 0 → P (b + f) = P b + v) ∧ (r = 2 → P (b + 2 * f) = P b) ∧
        (r = 1 ∨ r = 3 → P (b + 4 * f) = P b)) ∧
      (r ≠ 0 ∨ v = .origin →
        ((∃ b < 2 ^ 64, overflows b) ↔ ∃ b < 2 ^ 64, b ≤ 4 * f ∧ overflows b)) ∧
      (r = 0 → v ≠ .origin → f ≤ 2 ^ 32 → ∃ b < 2 ^ 64, overflows b) := by
  intro t
  exact ⟨by decide, by decide, walk_long_run (by decide) .standard⟩

end DragonCurve

import DragonCurve.Proofs.Cutoff
import DragonCurve.Proofs.Orbit
import Mathlib.NumberTheory.Zsqrtd.GaussianInt

/-! The extent of the dragon. A further round makes two moves of each, so every
place is passed again after twice as many moves, turned by an eighth and
stretched by the root of two; read as a Gaussian integer it is multiplied by
`1 - i`, which gives the end of every depth in closed form. For the places between
the ends, a refinement exchanges the two widths of an octagon about the origin, the
one along the axes and the one along the diagonals, and doubles one of them. So
both double with every second round, and the dragon of depth `d` stays within
twice the root of `2 ^ d` of its start, although it makes `2 ^ d` moves. -/

namespace DragonCurve

namespace Point

/-- The squared distance from the origin. -/
def normSq (p : Point) : ℤ := p.x ^ 2 + p.y ^ 2

/-- The point as a Gaussian integer. -/
def toGaussian (p : Point) : GaussianInt := ⟨p.x, p.y⟩

theorem normSq_stretch (p : Point) : p.stretch.normSq = 2 * p.normSq := by
  simp only [normSq, stretch]
  ring

theorem toGaussian_stretch (p : Point) :
    p.stretch.toGaussian = p.toGaussian * (1 - Zsqrtd.sqrtd) := by
  ext
  · simp [toGaussian, stretch]
  · simp [toGaussian, stretch]
    ring

theorem Within.normSq_le {m : ℤ} {p : Point} (h : p.Within m) : p.normSq ≤ 2 * m ^ 2 := by
  obtain ⟨⟨hx, hx'⟩, hy, hy'⟩ := h
  have hxm := sq_le_sq' hx hx'
  have hym := sq_le_sq' hy hy'
  unfold normSq
  omega

/-- The point lies in an octagon about the origin: within `a` along the axes, and
within `b` along the diagonals. -/
def Octagon (a b : ℤ) (p : Point) : Prop := p.Within a ∧ p.stretch.Within b

end Point

/-! ### The ends -/

theorem dragon_place_two_mul (k : ℕ) :
    Route.place dragon (2 * k) = (Route.place dragon k).stretch :=
  dragon_refinedBy.place_two_mul k

theorem toGaussian_dragon_place (d : ℕ) : (Route.place dragon (2 ^ d)).toGaussian =
    Zsqrtd.sqrtd * (1 - Zsqrtd.sqrtd) ^ d := by
  induction d with
  | zero => decide +kernel
  | succ d ih =>
    rw [pow_succ', dragon_place_two_mul, Point.toGaussian_stretch, ih, pow_succ, mul_assoc]

theorem normSq_dragon_place (d : ℕ) : (Route.place dragon (2 ^ d)).normSq = 2 ^ d := by
  induction d with
  | zero => decide +kernel
  | succ d ih => rw [pow_succ', dragon_place_two_mul, Point.normSq_stretch, ih, pow_succ']

/-! ### The places between -/

namespace Route

section Octagon

variable {t t' : Route} (h : t.RefinedBy t')
include h

/-- The elbow over a segment has one coordinate of either end of the segment
below, stretched. -/
theorem RefinedBy.elbow_shares (k : ℕ) :
    ((t'.place (2 * k + 1)).x = (t.place k).stretch.x ∧
        (t'.place (2 * k + 1)).y = (t.place (k + 1)).stretch.y) ∨
      ((t'.place (2 * k + 1)).x = (t.place (k + 1)).stretch.x ∧
        (t'.place (2 * k + 1)).y = (t.place k).stretch.y) := by
  have hfirst := t'.place_succ (2 * k)
  have hsecond := t'.place_succ (2 * k + 1)
  rw [show 2 * k + 1 + 1 = 2 * (k + 1) by omega, h.place_two_mul] at hsecond
  rw [h.place_two_mul] at hfirst
  obtain ⟨hx₁, hy₁⟩ := Point.ext_iff.mp hfirst
  obtain ⟨hx₂, hy₂⟩ := Point.ext_iff.mp hsecond
  have hv := (t.heading k).vector_cases
  have hv₁ := (t'.heading (2 * k)).vector_cases
  have hv₂ := (t'.heading (2 * k + 1)).vector_cases
  rw [t.place_succ] at hx₂ hy₂ ⊢
  simp only [Point.stretch, Point.x_add, Point.y_add] at hx₁ hy₁ hx₂ hy₂ ⊢
  omega

/-- A refinement exchanges the widths of an octagon, and of the two only that
along the diagonals grows. -/
theorem RefinedBy.octagon {a b : ℤ} {n : ℕ} (ht : ∀ k ≤ n, (t.place k).Octagon a b) :
    ∀ k ≤ 2 * n, (t'.place k).Octagon b (2 * a + 1) := by
  intro k hk
  obtain ⟨i, rfl | rfl⟩ := Nat.even_or_odd' k
  · obtain ⟨haxes, hdiagonals⟩ := ht i (by omega)
    rw [h.place_two_mul]
    refine ⟨hdiagonals, ?_⟩
    unfold Point.Within at haxes ⊢
    simp only [Point.stretch]
    omega
  · obtain ⟨haxes, hdiagonals⟩ := ht i (by omega)
    obtain ⟨-, hdiagonals'⟩ := ht (i + 1) (by omega)
    constructor
    · have hshares := h.elbow_shares i
      unfold Point.Within at hdiagonals hdiagonals' ⊢
      omega
    · have hv := (t'.heading (2 * i)).vector_cases
      rw [place_succ, h.place_two_mul]
      unfold Point.Within at haxes ⊢
      simp only [Point.stretch, Point.x_add, Point.y_add]
      omega

end Octagon

end Route

theorem dragon_octagon (d : ℕ) : ∀ k ≤ 2 ^ d,
    (Route.place dragon k).Octagon (2 ^ (d / 2 + 1) - 1) (2 ^ ((d + 1) / 2 + 1) - 1) := by
  induction d with
  | zero => unfold Point.Octagon; decide +kernel
  | succ d ih =>
    have hnext : (2 : ℤ) ^ ((d + 1 + 1) / 2 + 1) - 1 = 2 * (2 ^ (d / 2 + 1) - 1) + 1 := by
      rw [show (d + 1 + 1) / 2 + 1 = d / 2 + 1 + 1 by omega, pow_succ]
      ring
    rw [pow_succ', hnext]
    exact dragon_refinedBy.octagon ih

/-- In even depths the diagonals of the octagon give the bound, in odd depths the
axes. -/
theorem normSq_dragon_place_le {d k : ℕ} (h : k ≤ 2 ^ d) :
    (Route.place dragon k).normSq ≤ 4 * 2 ^ d := by
  obtain ⟨haxes, hdiagonals⟩ := dragon_octagon d k h
  obtain ⟨j, hd⟩ := Nat.even_or_odd' d
  have hwidth : ((2 : ℤ) ^ (j + 1) - 1) ^ 2 ≤ 4 * 2 ^ (2 * j) := by
    have hpos : (1 : ℤ) ≤ 2 ^ j := one_le_pow₀ (by omega)
    rw [pow_mul', pow_succ (2 : ℤ) j]
    nlinarith
  rcases hd with rfl | rfl
  · have hsq := hdiagonals.normSq_le
    rw [Point.normSq_stretch, show (2 * j + 1) / 2 + 1 = j + 1 by omega] at hsq
    linarith
  · have hsq := haxes.normSq_le
    rw [show (2 * j + 1) / 2 + 1 = j + 1 by omega] at hsq
    rw [pow_succ]
    linarith

/-! ### Walks of uncut expansions -/

/-- Under the standard settings no expansion is cut off. -/
theorem truncated_expand_standard (d : ℕ) : (expand .standard d).value.truncated = false := by
  have hend := (expand_endsAt .standard d).unique (Settings.endsAt_standard d)
  rw [Expansion.truncated, hend, expand_requestedDepth, decide_eq_false (lt_irrefl d)]

/-- One more round doubles the resolution: the walk of the next depth is after
twice as many moves at the place of this one, turned by an eighth and stretched by
the root of two. So the complete walk ends at the Gaussian integer
`i * (1 - i) ^ d`, whose squared distance from the start is `2 ^ d`. -/
theorem walk_next_round {c : Settings} {d : ℕ} (hd : d ≤ 59)
    (hfull : (expand c d).value.truncated = false) :
    let s := (expand c d).value.sequence
    (∀ c', d ≤ 58 → (expand c' (d + 1)).value.truncated = false →
      ∀ c₁ c₂ k, k ≤ 2 ^ d → ∃ r₁ r₂,
        (s.walk c₁ k false).value = .ok r₁ ∧ r₁.totalSteps = k ∧
        ((expand c' (d + 1)).value.sequence.walk c₂ (2 * k) false).value = .ok r₂ ∧
        r₂.totalSteps = 2 * k ∧
        r₂.finalPosition = ⟨r₁.finalPosition.x + r₁.finalPosition.y,
          r₁.finalPosition.y - r₁.finalPosition.x⟩) ∧
    ∀ c₁ budget, 2 ^ d ≤ budget → ∃ r, (s.walk c₁ budget false).value = .ok r ∧
      r.totalSteps = 2 ^ d ∧
      r.finalPosition.toGaussian = Zsqrtd.sqrtd * (1 - Zsqrtd.sqrtd) ^ d ∧
      r.finalPosition.normSq = 2 ^ d := by
  intro s
  have hs : s = Sequence.seed.rounds d := expand_sequence_of_full hfull
  rw [hs]
  constructor
  · intro c' hd' hfull' c₁ c₂ k hk
    have hk' : 2 * k ≤ 2 ^ (d + 1) := by rw [pow_succ']; omega
    rw [expand_sequence_of_full hfull', Sequence.walk_rounds_seed_eq c₁ (by omega),
      Sequence.walk_rounds_seed_eq c₂ (by omega), Nat.min_eq_left hk, Nat.min_eq_left hk']
    exact ⟨_, _, rfl, rfl, rfl, rfl, dragon_place_two_mul k⟩
  · intro c₁ budget hb
    rw [Sequence.walk_rounds_seed_eq c₁ (by omega), Nat.min_eq_right hb]
    exact ⟨_, rfl, rfl, toGaussian_dragon_place d, normSq_dragon_place d⟩

/-- From depth 58 to depth 59 the walk makes more moves than a coordinate has
values. -/
theorem walk_next_round_deep :
    (58 ≤ 59 ∧ (expand .standard 58).value.truncated = false) ∧
      let s := (expand .standard 58).value.sequence
      (∀ c', 58 ≤ 58 → (expand c' (58 + 1)).value.truncated = false →
        ∀ c₁ c₂ k, k ≤ 2 ^ 58 → ∃ r₁ r₂,
          (s.walk c₁ k false).value = .ok r₁ ∧ r₁.totalSteps = k ∧
          ((expand c' (58 + 1)).value.sequence.walk c₂ (2 * k) false).value = .ok r₂ ∧
          r₂.totalSteps = 2 * k ∧
          r₂.finalPosition = ⟨r₁.finalPosition.x + r₁.finalPosition.y,
            r₁.finalPosition.y - r₁.finalPosition.x⟩) ∧
      ∀ c₁ budget, 2 ^ 58 ≤ budget → ∃ r, (s.walk c₁ budget false).value = .ok r ∧
        r.totalSteps = 2 ^ 58 ∧
        r.finalPosition.toGaussian = Zsqrtd.sqrtd * (1 - Zsqrtd.sqrtd) ^ 58 ∧
        r.finalPosition.normSq = 2 ^ 58 :=
  ⟨⟨by decide, truncated_expand_standard 58⟩,
    walk_next_round (by decide) (truncated_expand_standard 58)⟩

/-- No walk once over an uncut expansion leaves the range of coordinates, and all
its places lie within a radius that grows with the root of the number of moves. As
the budget is free, its end stands for the place after any number of moves. -/
theorem walk_radius {c : Settings} {d : ℕ} (hd : d ≤ 59)
    (hfull : (expand c d).value.truncated = false) (c' : Settings) (budget : ℕ) :
    ∃ r, ((expand c d).value.sequence.walk c' budget false).value = .ok r ∧
      r.totalSteps = min budget (2 ^ d) ∧
      r.finalPosition.normSq ≤ 6 * 2 ^ d ∧
      ∀ w ∈ r.waypoints, w.position.normSq ≤ 6 * 2 ^ d := by
  have hpow : (0 : ℤ) ≤ 2 ^ d := by positivity
  rw [expand_sequence_of_full hfull, Sequence.walk_rounds_seed_eq c' (by omega)]
  refine ⟨_, rfl, rfl, ?_, fun w hw => ?_⟩
  · have hle := normSq_dragon_place_le (Nat.min_le_right budget (2 ^ d))
    dsimp only
    omega
  · obtain ⟨k, hk, rfl⟩ := Route.mem_waypoints hw
    have hle := normSq_dragon_place_le (d := d) (k := k + 1) (by omega)
    simp only [Route.waypoint]
    omega

/-- The whole walk of depth 59, with every move recorded. -/
theorem walk_radius_deep :
    let c' : Settings := { traceHead := 2 ^ 59 }
    (59 ≤ 59 ∧ (expand .standard 59).value.truncated = false) ∧
      ∃ r, ((expand .standard 59).value.sequence.walk c' (2 ^ 59) false).value = .ok r ∧
        r.totalSteps = min (2 ^ 59) (2 ^ 59) ∧
        r.finalPosition.normSq ≤ 6 * 2 ^ 59 ∧
        ∀ w ∈ r.waypoints, w.position.normSq ≤ 6 * 2 ^ 59 := by
  intro c'
  exact ⟨⟨by decide, truncated_expand_standard 59⟩,
    walk_radius (by decide) (truncated_expand_standard 59) c' (2 ^ 59)⟩

end DragonCurve

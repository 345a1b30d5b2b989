import DragonCurve.Proofs.Rotation
import DragonCurve.Walk

/-! Routes. A route says for every move of an endless walk how far the turtle
has turned before it, in quarter turns to the right of north. It determines the
place after every number of moves, over unbounded integers, and the waypoints.
Two routes with the same headings at the first moves lead to the same places,
and a route that repeats itself after `m` moves in a turned frame repeats its
places there, turned likewise; after half a turn it is closed. -/

namespace DragonCurve

/-- The turning before each move, counted from zero. -/
abbrev Route := ℕ → ℤ

namespace Route

/-- The heading of move number `k + 1`. -/
def heading (t : Route) (k : ℕ) : Heading := Heading.north.rotate (t k)

/-- The place after `k` moves from the origin. -/
def place (t : Route) : ℕ → Point
  | 0 => .origin
  | k + 1 => t.place k + (t.heading k).vector

/-- The record of move number `k + 1`. -/
def waypoint (t : Route) (k : ℕ) : Waypoint := ⟨k + 1, t.place (k + 1), t.heading k⟩

/-- The records of those of the first `n` moves that are sampled. -/
def waypoints (t : Route) (sampled : ℕ → Bool) (n : ℕ) : List Waypoint :=
  ((List.range n).filter fun k => sampled (k + 1)).map t.waypoint

/-- None of the first `n` moves leaves the range of coordinates. -/
def Safe (t : Route) (n : ℕ) : Prop := ∀ k ≤ n, (t.place k).InRange

@[simp] theorem place_zero (t : Route) : t.place 0 = .origin := rfl

theorem place_succ (t : Route) (k : ℕ) : t.place (k + 1) = t.place k + (t.heading k).vector := rfl

theorem waypoints_succ (t : Route) (sampled : ℕ → Bool) (n : ℕ) :
    t.waypoints sampled (n + 1) = t.waypoints sampled n ++
      if sampled (n + 1) then [t.waypoint n] else [] := by
  simp only [waypoints, List.range_succ, List.filter_append, List.map_append]
  congr 1
  cases h : sampled (n + 1) <;> simp [h]

theorem mem_waypoints {t : Route} {sampled : ℕ → Bool} {n : ℕ} {w : Waypoint}
    (h : w ∈ t.waypoints sampled n) : ∃ k < n, w = t.waypoint k := by
  simp only [waypoints, List.mem_map, List.mem_filter, List.mem_range] at h
  obtain ⟨k, ⟨hk, _⟩, rfl⟩ := h
  exact ⟨k, hk, rfl⟩

theorem Safe.mono {t : Route} {m n : ℕ} (h : t.Safe n) (hmn : m ≤ n) : t.Safe m :=
  fun k hk => h k (hk.trans hmn)

theorem not_safe_iff {t : Route} {n : ℕ} : ¬ t.Safe n ↔ ∃ k ≤ n, ¬ (t.place k).InRange := by
  simp [Safe]

theorem safe_zero (t : Route) : t.Safe 0 := by
  intro k hk
  obtain rfl : k = 0 := by omega
  rw [place_zero]
  decide

theorem safe_succ {t : Route} {n : ℕ} : t.Safe (n + 1) ↔ t.Safe n ∧ (t.place (n + 1)).InRange := by
  constructor
  · intro h
    exact ⟨h.mono (by omega), h _ le_rfl⟩
  · rintro ⟨h, hn⟩ k hk
    rcases Nat.lt_or_ge n k with hlt | hge
    · obtain rfl : k = n + 1 := by omega
      exact hn
    · exact h k hge

/-! ### Agreement -/

section

variable {t t' : Route} {n : ℕ}

/-- Routes with the same headings at the first `n` moves agree on the places up to there. -/
theorem place_congr_heading (h : ∀ k < n, t.heading k = t'.heading k) :
    ∀ k ≤ n, t.place k = t'.place k := by
  intro k
  induction k with
  | zero => intro _; rfl
  | succ k ih =>
    intro hk
    rw [place_succ, place_succ, ih (by omega), h k (by omega)]

theorem safe_congr_heading (h : ∀ k < n, t.heading k = t'.heading k) : t.Safe n ↔ t'.Safe n :=
  forall₂_congr fun k hk => by rw [place_congr_heading h k hk]

theorem waypoints_congr_heading (h : ∀ k < n, t.heading k = t'.heading k)
    (sampled : ℕ → Bool) : t.waypoints sampled n = t'.waypoints sampled n := by
  apply List.map_congr_left
  intro k hk
  have hkn : k < n := List.mem_range.mp (List.mem_of_mem_filter hk)
  rw [waypoint, waypoint, place_congr_heading h (k + 1) hkn, h k hkn]

theorem heading_congr (h : ∀ k < n, t k = t' k) : ∀ k < n, t.heading k = t'.heading k :=
  fun k hk => congrArg Heading.north.rotate (h k hk)

theorem place_congr (h : ∀ k < n, t k = t' k) : ∀ k ≤ n, t.place k = t'.place k :=
  place_congr_heading (heading_congr h)

theorem safe_congr (h : ∀ k < n, t k = t' k) : t.Safe n ↔ t'.Safe n :=
  safe_congr_heading (heading_congr h)

theorem waypoints_congr (h : ∀ k < n, t k = t' k) (sampled : ℕ → Bool) :
    t.waypoints sampled n = t'.waypoints sampled n :=
  waypoints_congr_heading (heading_congr h) sampled

end

/-! ### Repetition in a turned frame -/

/-- A route that repeats itself after `m` moves with `r` more turns. -/
def Repeats (t : Route) (m : ℕ) (r : ℤ) : Prop := ∀ k, t (m + k) = t k + r

theorem place_add {t : Route} {m : ℕ} {r : ℤ} (h : t.Repeats m r) (k : ℕ) :
    t.place (m + k) = t.place m + (t.place k).facing (Heading.north.rotate r) := by
  induction k with
  | zero =>
    rw [place_zero, Point.facing_origin]
    ext <;> simp
  | succ k ih =>
    have hv : (t.heading (m + k)).vector = (t.heading k).vector.facing (Heading.north.rotate r) := by
      rw [heading, h, ← Heading.rotate_rotate, Heading.vector_rotate, heading]
    rw [← Nat.add_assoc, place_succ, ih, hv, place_succ, Point.facing_add]
    ext <;> simp [Int.add_assoc]

/-- Repetition after half a turn reflects the places through the middle. -/
theorem place_add_of_half {t : Route} {m : ℕ} {r : ℤ} (h : t.Repeats m r) (hr : r % 4 = 2)
    (k : ℕ) : t.place (m + k) = t.place m - t.place k := by
  have hsouth : Heading.north.rotate r = .south := Heading.north.rotate_congr (n := 2) hr
  rw [place_add h, hsouth]
  ext <;> simp [Point.facing] <;> omega

/-- Two half turns close the route. -/
theorem periodic_of_half {t : Route} {m : ℕ} {r : ℤ} (h : t.Repeats m r) (hr : r % 4 = 2) :
    Function.Periodic t.place (2 * m) := by
  intro k
  rw [show k + 2 * m = m + (m + k) by omega, place_add_of_half h hr, place_add_of_half h hr]
  ext <;> simp

theorem place_add_half {t : Route} {m : ℕ} (h : t.Repeats m 2) (k : ℕ) :
    t.place (m + k) = t.place m - t.place k :=
  place_add_of_half h rfl k

theorem place_two_mul {t : Route} {m : ℕ} (h : t.Repeats m 2) : t.place (2 * m) = .origin := by
  have hclosed := periodic_of_half h rfl 0
  rwa [Nat.zero_add] at hclosed

theorem place_mod {t : Route} {m : ℕ} (h : t.Repeats m 2) (k : ℕ) :
    t.place (k % (2 * m)) = t.place k :=
  (periodic_of_half h rfl).map_mod_nat k

end Route

end DragonCurve

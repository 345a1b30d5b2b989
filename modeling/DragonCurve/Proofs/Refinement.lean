import DragonCurve.Proofs.Route

/-! Refinement of routes. A finer route makes two moves for each move of a
coarser one, the two legs of a right angle over it, on alternating sides. So it
passes through the coarse places, turned by an eighth and stretched by the root
of two, after every second move. A segment of the finer route has one end of
even parity, which is such a place, and that end together with the elbow at the
other determines the coarse segment below it: no two moves of the finer route
share a segment unless two coarse ones do. Over two refinements the stretch is by
two, so the extent of a route doubles with every second refinement. -/

namespace DragonCurve

/-- An eighth of a turn to the right, stretched by the root of two. -/
def Point.stretch (p : Point) : Point := ⟨p.x + p.y, p.y - p.x⟩

theorem Point.stretch_injective : Function.Injective stretch := by
  intro p q h
  obtain ⟨hx, hy⟩ := Point.ext_iff.mp h
  simp only [stretch] at hx hy
  ext <;> omega

/-- The elbow over the coarse segment from `p` to `q`: straight on from an even
place, turned right from an odd one. -/
def Point.corner (p q : Point) : Point :=
  p.stretch + if (p.x + p.y) % 2 = 0 then q - p else (q - p).quarter

theorem Point.corner_injective (p : Point) : Function.Injective p.corner := by
  intro q r h
  obtain ⟨hx, hy⟩ := Point.ext_iff.mp h
  unfold corner at hx hy
  split_ifs at hx hy
  · simp only [x_add, y_add, x_sub, y_sub] at hx hy
    ext <;> omega
  · simp only [x_add, y_add, x_quarter, y_quarter, x_sub, y_sub] at hx hy
    ext <;> omega

namespace Route

/-- Every move of `t` becomes two moves of `t'`, the first of them straight on
at even moves and turned right at odd ones, the second the other way round. -/
def RefinedBy (t t' : Route) : Prop :=
  ∀ k, t' (2 * k) = t k + (k % 2 : ℕ) ∧ t' (2 * k + 1) = t k + ((k + 1) % 2 : ℕ)

/-- The parity of a place is that of the number of moves to it. -/
theorem place_parity (t : Route) (k : ℕ) : ((t.place k).x + (t.place k).y) % 2 = (k : ℤ) % 2 := by
  induction k with
  | zero => rfl
  | succ k ih =>
    have hv := (t.heading k).vector_cases
    rw [place_succ, Point.x_add, Point.y_add]
    omega

theorem place_ne_succ (t : Route) (k : ℕ) : t.place k ≠ t.place (k + 1) := by
  intro h
  have hk := t.place_parity k
  rw [h, place_parity] at hk
  omega

/-- The end that move `m` of a refinement shares with the coarse segment below. -/
def near (t : Route) (m : ℕ) : Point := t.place ((m + 1) / 2)

/-- The other end of that coarse segment. -/
def far (t : Route) (m : ℕ) : Point := t.place (m / 2 + (m + 1) % 2)

/-- The end of move `m` at which its leg meets the other leg. -/
def elbow (t : Route) (m : ℕ) : Point := t.place (2 * (m / 2) + 1)

section Ends

variable (t : Route) (k : ℕ)

theorem near_two_mul : t.near (2 * k) = t.place k := by
  rw [near, show (2 * k + 1) / 2 = k by omega]

theorem near_two_mul_add_one : t.near (2 * k + 1) = t.place (k + 1) := by
  rw [near, show (2 * k + 1 + 1) / 2 = k + 1 by omega]

theorem far_two_mul : t.far (2 * k) = t.place (k + 1) := by
  rw [far, show 2 * k / 2 + (2 * k + 1) % 2 = k + 1 by omega]

theorem far_two_mul_add_one : t.far (2 * k + 1) = t.place k := by
  rw [far, show (2 * k + 1) / 2 + (2 * k + 1 + 1) % 2 = k by omega]

theorem elbow_two_mul : t.elbow (2 * k) = t.place (2 * k + 1) := by
  rw [elbow, show 2 * k / 2 = k by omega]

theorem elbow_two_mul_add_one : t.elbow (2 * k + 1) = t.place (2 * k + 1) := by
  rw [elbow, show (2 * k + 1) / 2 = k by omega]

end Ends

section Legs

variable {t t' : Route} (h : t.RefinedBy t')
include h

theorem RefinedBy.vector_even {k : ℕ} (hk : k % 2 = 0) :
    (t'.heading (2 * k)).vector = (t.heading k).vector ∧
      (t'.heading (2 * k + 1)).vector = (t.heading k).vector.quarter := by
  obtain ⟨h₀, h₁⟩ := h k
  rw [hk] at h₀
  rw [show (k + 1) % 2 = 1 by omega] at h₁
  simp only [heading, h₀, h₁, Nat.cast_zero, Nat.cast_one, add_zero, true_and]
  rw [← Heading.rotate_rotate, Heading.vector_rotate_one]

theorem RefinedBy.vector_odd {k : ℕ} (hk : k % 2 = 1) :
    (t'.heading (2 * k)).vector = (t.heading k).vector.quarter ∧
      (t'.heading (2 * k + 1)).vector = (t.heading k).vector := by
  obtain ⟨h₀, h₁⟩ := h k
  rw [hk] at h₀
  rw [show (k + 1) % 2 = 0 by omega] at h₁
  simp only [heading, h₀, h₁, Nat.cast_zero, Nat.cast_one, add_zero, and_true]
  rw [← Heading.rotate_rotate, Heading.vector_rotate_one]

/-- After every second move the finer route is at a coarse place, stretched. -/
theorem RefinedBy.place_two_mul (k : ℕ) : t'.place (2 * k) = (t.place k).stretch := by
  induction k with
  | zero => rfl
  | succ k ih =>
    rw [show 2 * (k + 1) = 2 * k + 1 + 1 by omega, place_succ, place_succ, ih, place_succ]
    rcases Nat.mod_two_eq_zero_or_one k with hk | hk
    · rw [(h.vector_even hk).1, (h.vector_even hk).2]
      ext <;> simp [Point.stretch] <;> ring
    · rw [(h.vector_odd hk).1, (h.vector_odd hk).2]
      ext <;> simp [Point.stretch] <;> ring

/-- Seen from either end of a coarse segment, the elbow over it lies at the same
corner. -/
theorem RefinedBy.elbow_eq (m : ℕ) : t'.elbow m = (t.near m).corner (t.far m) := by
  obtain ⟨k, rfl | rfl⟩ := Nat.even_or_odd' m
  · have hp := t.place_parity k
    rw [elbow_two_mul, near_two_mul, far_two_mul, Point.corner, place_succ, h.place_two_mul,
      t.place_succ]
    rcases Nat.mod_two_eq_zero_or_one k with hk | hk
    · rw [(h.vector_even hk).1, if_pos (by omega)]
      ext <;> simp
    · rw [(h.vector_odd hk).1, if_neg (by omega)]
      ext <;> simp
  · have hp := t.place_parity (k + 1)
    have hnext := t'.place_succ (2 * k + 1)
    rw [show 2 * k + 1 + 1 = 2 * (k + 1) by omega, h.place_two_mul] at hnext
    obtain ⟨hx, hy⟩ := Point.ext_iff.mp hnext
    rw [elbow_two_mul_add_one, near_two_mul_add_one, far_two_mul_add_one, Point.corner]
    rcases Nat.mod_two_eq_zero_or_one k with hk | hk
    · rw [(h.vector_even hk).2] at hx hy
      rw [if_neg (by omega)]
      rw [t.place_succ] at hx hy ⊢
      ext <;> simp at hx hy ⊢ <;> omega
    · rw [(h.vector_odd hk).2] at hx hy
      rw [if_pos (by omega)]
      rw [t.place_succ] at hx hy ⊢
      ext <;> simp at hx hy ⊢ <;> omega

end Legs

/-! ### Segments -/

/-- The segment of move number `k + 1`, without direction. -/
def segment (t : Route) (k : ℕ) : Sym2 Point := s(t.place k, t.place (k + 1))

/-- The segments of places that agree with those of a route, from one place to
the next. -/
theorem injOn_of_segment {t : Route} {P : ℕ → Point} {n : ℕ} (hP : ∀ k ≤ n, P k = t.place k)
    (ht : Set.InjOn t.segment (Set.Iio n)) :
    Set.InjOn (fun k => s(P (k - 1), P k)) (Set.Icc 1 n) := by
  have hs : ∀ k ∈ Set.Icc 1 n, s(P (k - 1), P k) = t.segment (k - 1) := by
    rintro k ⟨h1, hk⟩
    rw [segment, hP k hk, hP (k - 1) (by omega), Nat.sub_add_cancel h1]
  intro k hk l hl e
  dsimp only at e
  rw [hs k hk, hs l hl] at e
  obtain ⟨hk1, hkn⟩ := hk
  obtain ⟨hl1, hln⟩ := hl
  have := ht (Set.mem_Iio.mpr (by omega)) (Set.mem_Iio.mpr (by omega)) e
  omega

/-- The coarse segment below a move. -/
theorem segment_half (t : Route) (m : ℕ) : t.segment (m / 2) = s(t.near m, t.far m) := by
  obtain ⟨k, rfl | rfl⟩ := Nat.even_or_odd' m
  · rw [near_two_mul, far_two_mul, segment, show 2 * k / 2 = k by omega]
  · rw [near_two_mul_add_one, far_two_mul_add_one, segment, show (2 * k + 1) / 2 = k by omega,
      Sym2.eq_swap]

/-- A fine segment by its end on the coarse route, which is even, and its elbow,
which is odd. -/
theorem RefinedBy.segment_eq {t t' : Route} (h : t.RefinedBy t') (m : ℕ) :
    t'.segment m = s((t.near m).stretch, t'.elbow m) := by
  obtain ⟨k, rfl | rfl⟩ := Nat.even_or_odd' m
  · rw [near_two_mul, elbow_two_mul, segment, h.place_two_mul]
  · rw [near_two_mul_add_one, elbow_two_mul_add_one, segment, ← h.place_two_mul]
    exact Sym2.eq_swap

/-- Equal fine segments lie over equal coarse segments, at the same end. -/
theorem RefinedBy.near_and_far_eq {t t' : Route} (h : t.RefinedBy t') {m n : ℕ}
    (e : t'.segment m = t'.segment n) : t.near m = t.near n ∧ t.far m = t.far n := by
  rw [h.segment_eq, h.segment_eq, Sym2.eq_iff] at e
  rcases e with ⟨hn, he⟩ | ⟨hn, -⟩
  · have hnear := Point.stretch_injective hn
    rw [h.elbow_eq, h.elbow_eq, hnear] at he
    exact ⟨hnear, Point.corner_injective _ he⟩
  · -- an elbow is no stretched point, as its parity is odd
    have hp := t'.place_parity (2 * (n / 2) + 1)
    rw [← elbow, ← hn, Point.stretch] at hp
    dsimp only at hp
    omega

/-- If no two of `n` coarse moves share a segment, no two of the `2 * n` moves
over them do. -/
theorem RefinedBy.segment_injOn {t t' : Route} (h : t.RefinedBy t') {n : ℕ}
    (ht : Set.InjOn t.segment (Set.Iio n)) : Set.InjOn t'.segment (Set.Iio (2 * n)) := by
  intro k hk l hl e
  simp only [Set.mem_Iio] at hk hl
  obtain ⟨hc, hf⟩ := h.near_and_far_eq e
  have hhalf : k / 2 = l / 2 := by
    apply ht (Set.mem_Iio.mpr (by omega)) (Set.mem_Iio.mpr (by omega))
    rw [segment_half, segment_half, hc, hf]
  -- the two legs over one move start from different ends of it
  obtain ⟨i, rfl | rfl⟩ := Nat.even_or_odd' k
  · obtain rfl | rfl : l = 2 * i ∨ l = 2 * i + 1 := by omega
    · rfl
    · rw [near_two_mul, near_two_mul_add_one] at hc
      exact absurd hc (t.place_ne_succ i)
  · obtain rfl | rfl : l = 2 * i ∨ l = 2 * i + 1 := by omega
    · rw [near_two_mul, near_two_mul_add_one] at hc
      exact absurd hc.symm (t.place_ne_succ i)
    · rfl

/-! ### Extent -/

/-- Every place has coordinates of at most `m`. -/
def Bounded (t : Route) (m : ℤ) : Prop := ∀ k, (t.place k).Within m

theorem RefinedBy.bounded {t t' : Route} (h : t.RefinedBy t') {m : ℤ} (ht : t.Bounded m) :
    t'.Bounded (2 * m + 1) := by
  intro n
  obtain ⟨k, hn⟩ := Nat.even_or_odd' n
  have hp := ht k
  have hv := (t'.heading (2 * k)).vector_cases
  unfold Point.Within at hp ⊢
  rcases hn with rfl | rfl
  · rw [h.place_two_mul, Point.stretch]
    dsimp only
    omega
  · rw [place_succ, h.place_two_mul, Point.x_add, Point.y_add, Point.stretch]
    dsimp only
    omega

/-- Twice refined, the route stays within one unit of the coarse places, turned
and stretched by two. -/
theorem RefinedBy.place_twice {t t' t'' : Route} (h : t.RefinedBy t') (h' : t'.RefinedBy t'')
    (n : ℕ) : ∃ k, (t''.place n - ⟨2 * (t.place k).y, -(2 * (t.place k).x)⟩).Within 1 := by
  have hfour : ∀ k, t''.place (4 * k) = ⟨2 * (t.place k).y, -(2 * (t.place k).x)⟩ := by
    intro k
    rw [show 4 * k = 2 * (2 * k) by ring, h'.place_two_mul, h.place_two_mul]
    ext <;> simp [Point.stretch] <;> ring
  obtain ⟨k, hk⟩ : ∃ k, n = 4 * k ∨ n = 4 * k + 1 ∨ n = 4 * k + 2 ∨ n + 1 = 4 * (k + 1) :=
    ⟨n / 4, by omega⟩
  unfold Point.Within
  rcases hk with rfl | rfl | rfl | hn
  · refine ⟨k, ?_⟩
    rw [hfour]
    simp
  · refine ⟨k, ?_⟩
    have hv := (t''.heading (4 * k)).vector_cases
    rw [place_succ, hfour]
    simp only [Point.x_sub, Point.y_sub, Point.x_add, Point.y_add]
    omega
  · refine ⟨k, ?_⟩
    have hv := (t'.heading (2 * k)).vector_cases
    rw [show 4 * k + 2 = 2 * (2 * k + 1) by ring, h'.place_two_mul, place_succ, h.place_two_mul]
    simp only [Point.stretch, Point.x_sub, Point.y_sub, Point.x_add, Point.y_add]
    omega
  · refine ⟨k + 1, ?_⟩
    have hv := (t''.heading n).vector_cases
    have hs := t''.place_succ n
    rw [hn, hfour] at hs
    obtain ⟨hx, hy⟩ := Point.ext_iff.mp hs
    simp only [Point.x_sub, Point.y_sub, Point.x_add, Point.y_add] at hx hy ⊢
    omega

theorem RefinedBy.bounded_twice {t t' t'' : Route} (h : t.RefinedBy t') (h' : t'.RefinedBy t'')
    {m : ℤ} (ht : t.Bounded m) : t''.Bounded (2 * m + 1) := by
  intro n
  obtain ⟨k, hk⟩ := h.place_twice h' n
  have hp := ht k
  unfold Point.Within at hp hk ⊢
  simp only [Point.x_sub, Point.y_sub] at hk
  omega

end Route

end DragonCurve

import DragonCurve.Proofs.Letters
import DragonCurve.Proofs.Unrolling

/-! Dead reckoning. On a grid without edges the place of a walk is known from its text
alone: an `F` goes one step on, `L` and `R` turn the step by a quarter, and no other
character does anything. The place after `k` moves is reckoned from the characters up to
and including the `k`-th `F`, as turns behind it do not matter; beyond the last `F` it stays
where that one led. Round and round a text it is reckoned from as many copies. It is the
place of the route that a walk over the text follows. So a walk once over a text makes the
moves as reckoned while all of their places are in range, and is a fault if one of them is
not. -/

namespace DragonCurve

/-- The state of a reckoning. -/
structure Reckoning where
  position : Point
  /-- The step that the next move makes. -/
  course : Point

namespace Reckoning

/-- At the origin, going north. -/
def start : Reckoning := ⟨⟨0, 0⟩, ⟨0, 1⟩⟩

/-- Reads one character. -/
def read (r : Reckoning) (c : Char) : Reckoning :=
  if c = 'F' then { r with position := ⟨r.position.x + r.course.x, r.position.y + r.course.y⟩ }
  else if c = 'L' then { r with course := ⟨-r.course.y, r.course.x⟩ }
  else if c = 'R' then { r with course := ⟨r.course.y, -r.course.x⟩ }
  else r

end Reckoning

/-- The characters up to and including the `k`-th `F`. -/
def throughMove : ℕ → List Char → List Char
  | 0, _ => []
  | _ + 1, [] => []
  | k + 1, c :: cs => c :: throughMove (if c = 'F' then k else k + 1) cs

/-- The place after `k` moves once over a text, on a grid without edges. -/
def reckonedPlace (cs : List Char) (k : ℕ) : Point :=
  ((throughMove k cs).foldl Reckoning.read .start).position

theorem reckonedPlace_zero (cs : List Char) : reckonedPlace cs 0 = .origin := by
  rw [reckonedPlace, throughMove]
  rfl

/-- The place after `k` moves round and round a text, on a grid without edges: `k` copies
of the text have these moves, if it has any. -/
def cyclicPlace (cs : List Char) (k : ℕ) : Point := reckonedPlace (List.replicate k cs).flatten k

/-! ### The reckoning follows the route -/

namespace Reckoning

/-- The reckoning of the turtle at `p` that is turned by `b`. -/
def facing (p : Point) (b : ℤ) : Reckoning := ⟨p, (Heading.north.rotate b).vector⟩

theorem facing_zero : facing .origin 0 = start := rfl

theorem read_forward {t : Route} (n : ℕ) :
    (facing (t.place n) (t n)).read 'F' = facing (t.place (n + 1)) (t n) := rfl

theorem read_turn {c : Char} (h : c ≠ 'F') (p : Point) (b : ℤ) :
    (facing p b).read c = facing p (b + (charAction c).turning) := by
  have hleft : ∀ d : Heading, (d.rotate (-1)).vector = ⟨-d.vector.y, d.vector.x⟩ := by
    intro d
    cases d <;> rfl
  rw [charAction_eq, read, if_neg h, if_neg h, facing]
  split_ifs
  · rw [facing, Action.turning, ← Heading.rotate_rotate, hleft]
  · rw [facing, Action.turning, ← Heading.rotate_rotate, Heading.vector_rotate_one]
    rfl
  · rw [facing, Action.turning, add_zero]

/-- If a route has the bearings of a text from place `n` on, then reckoning through move
number `k` of the text leads from there to place `n + k`, and through more moves than the
text has to its last place. -/
theorem position_throughMove {t : Route} (cs : List Char) (n k : ℕ) (b : ℤ)
    (ht : ∀ i x, (bearings b (cs.map charAction))[i]? = some x → t (n + i) = x) :
    ((throughMove k cs).foldl read (facing (t.place n) b)).position =
      t.place (n + min k ((cs.map charAction).count .forward)) := by
  induction cs generalizing n k b with
  | nil => cases k <;> simp [throughMove, facing]
  | cons c cs ih =>
    cases k with
    | zero =>
      rw [Nat.zero_min]
      rfl
    | succ k =>
      rw [throughMove, List.foldl_cons]
      rw [List.map_cons] at ht ⊢
      by_cases hc : c = 'F'
      · subst hc
        rw [charAction_eq_forward_iff.mpr rfl] at ht ⊢
        obtain rfl : t n = b := ht 0 b (by simp)
        have hrest : ∀ i x, (bearings (t n) (cs.map charAction))[i]? = some x →
            t (n + 1 + i) = x := by
          intro i x hx
          rw [Nat.add_right_comm]
          exact ht (i + 1) x (by simpa using hx)
        rw [if_pos rfl, read_forward, ih (n + 1) k _ hrest, List.count_cons_self,
          Nat.add_min_add_right, Nat.add_right_comm, Nat.add_assoc]
      · have hmove : charAction c ≠ .forward := mt charAction_eq_forward_iff.mp hc
        rw [bearings_cons hmove] at ht
        rw [if_neg hc, read_turn hc, List.count_cons_of_ne hmove]
        exact ih n (k + 1) _ ht

end Reckoning

theorem reckonedPlace_eq (cs : List Char) (k : ℕ) : reckonedPlace cs k =
    (route (cs.map charAction)).place (min k ((cs.map charAction).count .forward)) := by
  have hfirst : ∀ i x, (bearings 0 (cs.map charAction))[i]? = some x →
      route (cs.map charAction) (0 + i) = x := by
    intro i x hx
    rw [Nat.zero_add, route_first hx]
  have h := Reckoning.position_throughMove cs 0 k 0 hfirst
  rwa [Route.place_zero, Reckoning.facing_zero, Nat.zero_add] at h

theorem cyclicPlace_eq {cs : List Char} (hf : 0 < (cs.map charAction).count .forward) (k : ℕ) :
    cyclicPlace cs k = (route (cs.map charAction)).place k := by
  have hk : k ≤ k * (cs.map charAction).count .forward := Nat.le_mul_of_pos_right k hf
  have hcopies : (List.replicate k cs).flatten.map charAction =
      (List.replicate k (cs.map charAction)).flatten := by
    rw [List.map_flatten, List.map_replicate]
  rw [cyclicPlace, reckonedPlace_eq, hcopies, count_copies, Nat.min_eq_left hk]
  exact Route.place_congr (fun j hj => route_copies (hj.trans_le hk)) k le_rfl

namespace Sequence

theorem reckonedPlace_text (s : Sequence) (k : ℕ) : reckonedPlace s.text.toList k =
    (route s.actions).place (min k (s.actions.count .forward)) := by
  rw [s.actions_eq, reckonedPlace_eq]

theorem cyclicPlace_text {s : Sequence} (hf : 0 < s.actions.count .forward) :
    cyclicPlace s.text.toList = (route s.actions).place := by
  rw [s.actions_eq] at hf ⊢
  exact funext (cyclicPlace_eq hf)

/-- The places that a walk over a sequence comes to are those reckoned from its text. -/
theorem place_eq_reckoned {s : Sequence} {b k : ℕ} {looped : Bool}
    (hk : k ≤ Walk.moveCount s.actions b looped) : (route s.actions).place k =
      if looped then cyclicPlace s.text.toList k else reckonedPlace s.text.toList k := by
  cases looped with
  | false =>
    have hmoves : k ≤ s.actions.count .forward := hk.trans (Nat.min_le_right _ _)
    rw [if_neg Bool.false_ne_true, reckonedPlace_text, Nat.min_eq_left hmoves]
  | true =>
    rw [if_pos rfl]
    rcases Nat.eq_zero_or_pos (s.actions.count .forward) with hzero | hpos
    · -- without a move the walk stays at the origin
      obtain rfl : k = 0 := by simpa [Walk.moveCount, hzero] using hk
      rfl
    · rw [cyclicPlace_text hpos]

end Sequence

/-- A walk once over a text makes as many moves as the budget pays for and the text has,
and ends where they are reckoned to lead, if all places on the way are in range. If one of
them is not, the walk leaves the grid. -/
theorem walk_reckoned (c : Settings) (t : String) (b : ℕ) :
    let walk := ((Sequence.ofString t).walk c b false).value
    let n := min b (t.toList.count 'F')
    let Q := reckonedPlace t.toList
    ((∀ k ≤ n, (Q k).InRange) →
      ∃ r, walk = .ok r ∧ r.totalSteps = n ∧ r.finalPosition = Q n ∧
        r.sequenceLength = t.length ∧ r.looped = false ∧
        r.requestedDepth = none ∧ r.expandedDepth = none) ∧
    ((∃ k ≤ n, ¬ (Q k).InRange) → walk = .error .overflow) := by
  intro walk n Q
  have hn : Walk.moveCount (Sequence.ofString t).actions b false = n := by
    rw [Walk.moveCount, Sequence.count_actions_ofString]
    rfl
  have hplace : ∀ k ≤ n, Q k = (route (Sequence.ofString t).actions).place k := by
    intro k hk
    rw [Sequence.place_eq_reckoned (hk.trans_eq hn.symm)]
    rfl
  constructor
  · intro hrange
    have hsafe : (route (Sequence.ofString t).actions).Safe n :=
      fun k hk => hplace k hk ▸ hrange k hk
    refine ⟨_, Sequence.walk_of_safe (hn.symm ▸ hsafe), hn, ?_, rfl, rfl, rfl, rfl⟩
    rw [Sequence.survey, hn, hplace n le_rfl]
  · rintro ⟨k, hk, hout⟩
    rw [hplace k hk] at hout
    exact Sequence.walk_of_not_safe (Route.not_safe_iff.mpr ⟨k, hn.symm ▸ hk, hout⟩)

end DragonCurve

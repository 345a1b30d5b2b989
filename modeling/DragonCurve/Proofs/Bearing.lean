import DragonCurve.Proofs.Route
import DragonCurve.Report

/-! Bearings of action lists. The turning of a list is the number of its right
turns less that of its left turns, and its bearings are the turnings before each
of its moves. Bearings of a joined list are those of the parts, the second part
starting from the turning of the first. Walking a list round and round follows
one route: move `k` is move `k % f` of pass `k / f`, where `f` is the number of
moves in a pass, and every earlier pass has added the turning of the list. -/

namespace DragonCurve

/-- Quarter turns to the right. -/
def Action.turning : Action → ℤ
  | .turnRight => 1
  | .turnLeft => -1
  | .forward | .ignore => 0

/-- Right turns less left turns. -/
def turning (as : List Action) : ℤ := (as.map Action.turning).sum

/-- The turnings before each move, when `b` is the turning before the list. -/
def bearings (b : ℤ) : List Action → List ℤ
  | [] => []
  | .forward :: as => b :: bearings b as
  | a :: as => bearings (b + a.turning) as

@[simp] theorem turning_nil : turning [] = 0 := rfl

@[simp] theorem turning_cons (a : Action) (as : List Action) :
    turning (a :: as) = a.turning + turning as := by
  simp [turning]

@[simp] theorem turning_append (as bs : List Action) :
    turning (as ++ bs) = turning as + turning bs := by
  simp [turning]

@[simp] theorem bearings_nil (b : ℤ) : bearings b [] = [] := rfl

@[simp] theorem bearings_forward (b : ℤ) (as : List Action) :
    bearings b (.forward :: as) = b :: bearings b as := rfl

theorem bearings_cons {a : Action} (h : a ≠ .forward) (b : ℤ) (as : List Action) :
    bearings b (a :: as) = bearings (b + a.turning) as := by
  cases a with
  | forward => exact absurd rfl h
  | _ => rfl

theorem bearings_append (b : ℤ) (as bs : List Action) :
    bearings b (as ++ bs) = bearings b as ++ bearings (b + turning as) bs := by
  induction as generalizing b with
  | nil => simp
  | cons a as ih =>
    by_cases h : a = .forward
    · subst h
      simp [ih, Action.turning]
    · rw [List.cons_append, bearings_cons h, bearings_cons h, ih, turning_cons, add_assoc]

theorem bearings_add (b c : ℤ) (as : List Action) :
    bearings (b + c) as = (bearings b as).map (· + c) := by
  induction as generalizing b with
  | nil => rfl
  | cons a as ih =>
    by_cases h : a = .forward
    · subst h
      simp [ih]
    · rw [bearings_cons h, bearings_cons h, ← ih]
      congr 1
      ring

theorem length_bearings (b : ℤ) (as : List Action) :
    (bearings b as).length = as.count .forward := by
  induction as generalizing b with
  | nil => rfl
  | cons a as ih =>
    by_cases h : a = .forward
    · subst h
      simp [ih]
    · rw [bearings_cons h, ih, List.count_cons_of_ne h]

/-- Right turns less left turns of a word. -/
def netTurn (w : List Symbol) : ℤ := w.count .right - w.count .left

theorem turning_map_action (w : List Symbol) : turning (w.map Symbol.action) = netTurn w := by
  induction w with
  | nil => rfl
  | cons s w ih =>
    rw [List.map_cons, turning_cons, ih]
    cases s <;> simp [netTurn, Symbol.action, Action.turning] <;> ring

theorem count_map_action (w : List Symbol) :
    (w.map Symbol.action).count .forward = w.count .forward := by
  induction w with
  | nil => rfl
  | cons s w ih => cases s <;> simp [Symbol.action, ih]

theorem Sequence.count_actions (s : Sequence) : s.actions.count .forward = s.forwardCount :=
  count_map_action _

/-- The route of walking a list round and round. -/
def route (as : List Action) : Route := fun k =>
  (bearings 0 as).getD (k % as.count .forward) 0 + (k / as.count .forward : ℕ) * turning as

theorem route_of_lt {as : List Action} {k : ℕ} (h : k < as.count .forward) :
    route as k = (bearings 0 as).getD k 0 := by
  simp [route, Nat.mod_eq_of_lt h, Nat.div_eq_of_lt h]

theorem route_repeats {as : List Action} (h : 0 < as.count .forward) :
    (route as).Repeats (as.count .forward) (turning as) := by
  intro k
  simp only [route, Nat.add_mod_left, Nat.add_div_left k h]
  push_cast
  ring

/-- On pass `p` the route goes through the bearings of the list, started from
the turning of the passes before. -/
theorem route_pass {as : List Action} (p : ℕ) {i : ℕ} {x : ℤ}
    (hx : (bearings (p * turning as) as)[i]? = some x) :
    route as (p * as.count .forward + i) = x := by
  have hb : bearings (p * turning as) as = (bearings 0 as).map (· + p * turning as) := by
    rw [← bearings_add, zero_add]
  rw [hb, List.getElem?_map, Option.map_eq_some_iff] at hx
  obtain ⟨y, hy, rfl⟩ := hx
  have hi : i < as.count .forward := by
    rw [← length_bearings 0]
    exact (List.getElem?_eq_some_iff.mp hy).1
  have hf : 0 < as.count .forward := by omega
  have hmod : (p * as.count .forward + i) % as.count .forward = i := by
    rw [Nat.mul_comm, Nat.mul_add_mod, Nat.mod_eq_of_lt hi]
  have hdiv : (p * as.count .forward + i) / as.count .forward = p := by
    rw [Nat.mul_comm, Nat.mul_add_div hf, Nat.div_eq_of_lt hi, Nat.add_zero]
  rw [route, hmod, hdiv, List.getD_eq_getElem?_getD, hy]
  rfl

/-- On the first pass the route goes through the bearings of the list. -/
theorem route_first {as : List Action} {i : ℕ} {x : ℤ} (hx : (bearings 0 as)[i]? = some x) :
    route as i = x := by
  have h := @route_pass as 0 i x
  simp only [Nat.cast_zero, zero_mul, Nat.zero_add] at h
  exact h hx

end DragonCurve

import DragonCurve.Proofs.Bearing
import DragonCurve.Proofs.Rounds
import DragonCurve.Report

/-! The bearings of the expanded dragon. Before its move `k` the endless dragon
has turned once to the right for every place at which neighbouring binary digits
of `k` differ. The two growing letters expand to words whose bearings are
stretches of this route: `a` to the part from one to `2 ^ n` and `b`, when the
turtle comes to it from a right turn after `a`, to the part from `2 ^ n` on. So
the seed after `n` rounds makes the first `2 ^ n` moves of the dragon, whatever
`n` is, and from the first round on it turns by a half in all. -/

namespace DragonCurve

/-- The turning of the endless dragon before each move. -/
def dragon (k : ℕ) : ℤ :=
  if k = 0 then 0 else dragon (k / 2) + ((k / 2 + k) % 2 : ℕ)
decreasing_by omega

theorem dragon_zero : dragon 0 = 0 := by
  rw [dragon, if_pos rfl]

theorem dragon_eq (k : ℕ) : dragon k = dragon (k / 2) + ((k / 2 + k) % 2 : ℕ) := by
  rcases Nat.eq_zero_or_pos k with rfl | hk
  · simp [dragon_zero]
  · rw [dragon, if_neg (by omega)]

theorem dragon_two_mul (k : ℕ) : dragon (2 * k) = dragon k + (k % 2 : ℕ) := by
  rw [dragon_eq, show 2 * k / 2 = k by omega, show (k + 2 * k) % 2 = k % 2 by omega]

theorem dragon_two_mul_add_one (k : ℕ) :
    dragon (2 * k + 1) = dragon k + ((k + 1) % 2 : ℕ) := by
  rw [dragon_eq, show (2 * k + 1) / 2 = k by omega,
    show (k + (2 * k + 1)) % 2 = (k + 1) % 2 by omega]

/-- Moves of equal parity keep their difference in turning when a binary digit is
appended to both. -/
theorem dragon_append {x y : ℕ} {c : ℤ} (h : dragon x = dragon y + c) (hp : x % 2 = y % 2) :
    dragon (2 * x) = dragon (2 * y) + c ∧ dragon (2 * x + 1) = dragon (2 * y + 1) + c := by
  rw [dragon_two_mul, dragon_two_mul, dragon_two_mul_add_one, dragon_two_mul_add_one, h]
  omega

/-- A leading one followed by a zero makes two more changes of digit. -/
theorem dragon_add_of_lt {n k : ℕ} (h : k < 2 ^ n) : dragon (2 ^ (n + 1) + k) = dragon k + 2 := by
  induction n generalizing k with
  | zero =>
    obtain rfl : k = 0 := by omega
    decide +kernel
  | succ n ih =>
    rw [pow_succ] at h
    obtain ⟨i, hk⟩ := Nat.even_or_odd' k
    have hpow : 2 ^ (n + 1 + 1) = 2 * 2 ^ (n + 1) := by ring
    have hi := dragon_append (ih (k := i) (by omega)) (by rw [pow_succ]; omega)
    rcases hk with rfl | rfl
    · rw [hpow, ← Nat.mul_add]
      exact hi.1
    · rw [hpow, ← Nat.add_assoc, ← Nat.mul_add]
      exact hi.2

/-- A leading one followed by a one makes as many changes as the second alone. -/
theorem dragon_add_of_ge {n k : ℕ} (h : k < 2 ^ n) :
    dragon (2 ^ (n + 1) + (2 ^ n + k)) = dragon (2 ^ n + k) := by
  suffices dragon (2 ^ (n + 1) + (2 ^ n + k)) = dragon (2 ^ n + k) + 0 by rwa [add_zero] at this
  induction n generalizing k with
  | zero =>
    obtain rfl : k = 0 := by omega
    decide +kernel
  | succ n ih =>
    rw [pow_succ] at h
    obtain ⟨i, hk⟩ := Nat.even_or_odd' k
    have hi := dragon_append (ih (k := i) (by omega)) (by rw [pow_succ]; omega)
    rcases hk with rfl | rfl
    · rw [show 2 ^ (n + 1 + 1) + (2 ^ (n + 1) + 2 * i) = 2 * (2 ^ (n + 1) + (2 ^ n + i)) by ring,
        show 2 ^ (n + 1) + 2 * i = 2 * (2 ^ n + i) by ring]
      exact hi.1
    · rw [show 2 ^ (n + 1 + 1) + (2 ^ (n + 1) + (2 * i + 1)) =
          2 * (2 ^ (n + 1) + (2 ^ n + i)) + 1 by ring,
        show 2 ^ (n + 1) + (2 * i + 1) = 2 * (2 ^ n + i) + 1 by ring]
      exact hi.2

/-! ### The growing letters -/

/-- What the turtle is told by a symbol after `n` rounds. -/
def growth (n : ℕ) (s : Symbol) : List Action := (generation n [s]).map Symbol.action

theorem growth_a_succ (n : ℕ) :
    growth (n + 1) .a = growth n .a ++ .turnRight :: (growth n .b ++ [.forward, .turnRight]) := by
  simp only [growth, generation_succ, List.flatMap_singleton, Symbol.offspring]
  rw [generation_cons, generation_cons_of_stable (s := .right) rfl, generation_cons n .b,
    generation_cons_of_stable (s := .forward) rfl, generation_cons_of_stable (s := .right) rfl,
    generation_nil]
  simp [Symbol.action]

theorem growth_b_succ (n : ℕ) :
    growth (n + 1) .b = .turnLeft :: .forward :: (growth n .a ++ .turnLeft :: growth n .b) := by
  simp only [growth, generation_succ, List.flatMap_singleton, Symbol.offspring]
  rw [generation_cons_of_stable (s := .left) rfl, generation_cons_of_stable (s := .forward) rfl,
    generation_cons n .a, generation_cons_of_stable (s := .left) rfl]
  simp [Symbol.action]

theorem turning_growth_add (n : ℕ) : turning (growth n .a) + turning (growth n .b) = 0 := by
  induction n with
  | zero => rfl
  | succ n ih =>
    rw [growth_a_succ, growth_b_succ]
    simp only [turning_append, turning_cons, turning_nil, Action.turning]
    omega

/-- From the first round on, `a` turns the turtle by a half. -/
theorem turning_growth_a (n : ℕ) : turning (growth (n + 1) .a) = 2 := by
  have h := turning_growth_add n
  rw [growth_a_succ]
  simp only [turning_append, turning_cons, turning_nil, Action.turning]
  omega

/-- Where `b` follows `a`, its moves are the same as from a turning of three:
before the first round it has none. -/
theorem bearings_growth_b (n : ℕ) :
    bearings (turning (growth n .a) + 1) (growth n .b) = bearings 3 (growth n .b) := by
  cases n with
  | zero => rfl
  | succ n => rw [turning_growth_a]; rfl

/-- The moves of the letters are moves of the dragon. The two parts are proved
together, since each letter's expansion holds the other's. -/
theorem bearings_growth (n : ℕ) :
    bearings 0 (.forward :: growth n .a) = (List.range (2 ^ n)).map dragon ∧
      bearings 3 (growth n .b) ++ [1] = (List.range (2 ^ n)).map fun k => dragon (2 ^ n + k) := by
  induction n with
  | zero =>
    constructor <;> decide +kernel
  | succ n ih =>
    obtain ⟨ha, hb⟩ := ih
    have hsum := turning_growth_add n
    have hrange : List.range (2 ^ (n + 1)) =
        List.range (2 ^ n) ++ (List.range (2 ^ n)).map (2 ^ n + ·) := by
      rw [pow_succ, Nat.mul_two, List.range_add]
    constructor
    · have hlast : turning (growth n .a) + 1 + turning (growth n .b) = 1 := by omega
      rw [growth_a_succ, ← List.cons_append, bearings_append, ha, hrange, List.map_append,
        List.map_map]
      congr 1
      rw [bearings_cons (by decide), bearings_append]
      simp only [turning_cons, Action.turning, zero_add, bearings_growth_b, hlast]
      exact hb
    · rw [growth_b_succ, bearings_cons (by decide), ← List.cons_append, bearings_append,
        List.append_assoc, hrange, List.map_append, List.map_map]
      congr 1
      · rw [show (3 : ℤ) + Action.turning .turnLeft = 0 + 2 by decide, bearings_add, ha, List.map_map]
        apply List.map_congr_left
        intro k hk
        exact (dragon_add_of_lt (List.mem_range.mp hk)).symm
      · rw [bearings_cons (by decide)]
        simp only [turning_cons, Action.turning]
        rw [show (3 : ℤ) + -1 + (0 + turning (growth n .a)) + -1 = turning (growth n .a) + 1 by ring,
          bearings_growth_b, hb]
        apply List.map_congr_left
        intro k hk
        exact (dragon_add_of_ge (List.mem_range.mp hk)).symm

/-! ### The expanded seed -/

namespace Sequence

variable (n : ℕ)

theorem actions_rounds_seed : (seed.rounds n).actions = .forward :: growth n .a := by
  rw [actions, symbols_rounds, symbols_seed, generation_cons_of_stable rfl]
  rfl

theorem bearings_rounds_seed :
    bearings 0 (seed.rounds n).actions = (List.range (2 ^ n)).map dragon := by
  rw [actions_rounds_seed]
  exact (bearings_growth n).1

theorem count_rounds_seed : (seed.rounds n).actions.count .forward = 2 ^ n := by
  rw [← length_bearings 0, bearings_rounds_seed, List.length_map, List.length_range]

theorem forwardCount_rounds_seed : (seed.rounds n).forwardCount = 2 ^ n := by
  rw [← count_actions, count_rounds_seed]

/-- From the first round on, a pass over the seed turns the turtle by a half. -/
theorem turning_rounds_seed : turning (seed.rounds (n + 1)).actions = 2 := by
  rw [actions_rounds_seed, turning_cons, turning_growth_a]
  rfl

/-- The first pass over the seed is the beginning of the dragon. -/
theorem route_rounds_seed {n k : ℕ} (h : k < 2 ^ n) : route (seed.rounds n).actions k = dragon k := by
  rw [route_of_lt (by rwa [count_rounds_seed]), bearings_rounds_seed, List.getD_eq_getElem?_getD,
    List.getElem?_map, List.getElem?_range h]
  rfl

end Sequence

end DragonCurve

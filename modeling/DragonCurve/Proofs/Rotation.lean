import DragonCurve.Heading
import Mathlib.Tactic

/-! Rotations of the grid. A heading is rotated by an integer number of quarter
turns, positive ones clockwise, and a point about the origin so that north goes
to a given heading. Rotations of headings add up and depend on the number modulo
four only, and the unit step of a rotated heading is the rotated unit step. -/

namespace DragonCurve

namespace Point

attribute [ext] Point

@[simp] theorem x_origin : origin.x = 0 := rfl

@[simp] theorem y_origin : origin.y = 0 := rfl

/-- A quarter turn to the right about the origin. -/
def quarter (p : Point) : Point := ⟨p.y, -p.x⟩

@[simp] theorem x_quarter (p : Point) : p.quarter.x = p.y := rfl

@[simp] theorem y_quarter (p : Point) : p.quarter.y = -p.x := rfl

/-- Every coordinate is at most `m` in absolute value. -/
def Within (m : ℤ) (p : Point) : Prop := (-m ≤ p.x ∧ p.x ≤ m) ∧ (-m ≤ p.y ∧ p.y ≤ m)

instance (m : ℤ) (p : Point) : Decidable (p.Within m) := by unfold Within; infer_instance

theorem Within.inRange {m : ℤ} {p : Point} (h : p.Within m) (hm : m ≤ 2147483647) : p.InRange := by
  unfold Within at h
  unfold InRange
  omega

end Point

namespace Heading

theorem index_ofIndex (n : ℕ) : (ofIndex n).index = n % 4 := by
  have hn := Nat.mod_lt n (by omega : 0 < 4)
  unfold ofIndex
  interval_cases n % 4 <;> rfl

theorem index_injective : Function.Injective index := by
  intro h h' e
  rw [← ofIndex_index h, e, ofIndex_index]

/-- The heading after `n` quarter turns to the right, or `-n` to the left. -/
def rotate (h : Heading) (n : ℤ) : Heading := ofIndex ((h.index + n) % 4).toNat

theorem index_rotate (h : Heading) (n : ℤ) : ((h.rotate n).index : ℤ) = (h.index + n) % 4 := by
  rw [rotate, index_ofIndex]
  omega

theorem rotate_congr (h : Heading) {m n : ℤ} (e : m % 4 = n % 4) : h.rotate m = h.rotate n := by
  apply index_injective
  have hm := h.index_rotate m
  have hn := h.index_rotate n
  omega

theorem mod_eq_of_rotate_eq {h : Heading} {m n : ℤ} (e : h.rotate m = h.rotate n) :
    m % 4 = n % 4 := by
  have hm := h.index_rotate m
  rw [e, h.index_rotate n] at hm
  omega

@[simp] theorem rotate_zero (h : Heading) : h.rotate 0 = h := by cases h <;> rfl

theorem rotate_rotate (h : Heading) (m n : ℤ) : (h.rotate m).rotate n = h.rotate (m + n) := by
  apply index_injective
  have h₁ := (h.rotate m).index_rotate n
  have h₂ := h.index_rotate m
  have h₃ := h.index_rotate (m + n)
  omega

theorem turnRight_eq (h : Heading) : h.turnRight = h.rotate 1 := by cases h <;> rfl

theorem turnLeft_eq (h : Heading) : h.turnLeft = h.rotate (-1) := by cases h <;> rfl

theorem vector_rotate_one (h : Heading) : (h.rotate 1).vector = h.vector.quarter := by
  cases h <;> rfl

/-- A unit step changes exactly one coordinate, by one. -/
theorem vector_cases (h : Heading) : (h.vector.x = 0 ∧ (h.vector.y = 1 ∨ h.vector.y = -1)) ∨
    (h.vector.y = 0 ∧ (h.vector.x = 1 ∨ h.vector.x = -1)) := by
  cases h <;> decide

end Heading

namespace Point

/-- The point rotated about the origin so that north becomes the heading. -/
def facing (p : Point) : Heading → Point
  | .north => p
  | .east => p.quarter
  | .south => -p
  | .west => -p.quarter

theorem facing_origin (h : Heading) : origin.facing h = origin := by cases h <;> rfl

theorem facing_add (p q : Point) (h : Heading) : (p + q).facing h = p.facing h + q.facing h := by
  cases h <;> ext <;> simp only [facing, x_add, y_add, x_neg, y_neg, x_quarter, y_quarter] <;> omega

end Point

theorem Heading.vector_rotate (h : Heading) (n : ℤ) :
    (h.rotate n).vector = h.vector.facing (north.rotate n) := by
  have hn : n % 4 = 0 ∨ n % 4 = 1 ∨ n % 4 = 2 ∨ n % 4 = 3 := by omega
  rcases hn with e | e | e | e
  · rw [h.rotate_congr (n := 0) e, north.rotate_congr (n := 0) e]
    cases h <;> rfl
  · rw [h.rotate_congr (n := 1) e, north.rotate_congr (n := 1) e]
    cases h <;> rfl
  · rw [h.rotate_congr (n := 2) e, north.rotate_congr (n := 2) e]
    cases h <;> rfl
  · rw [h.rotate_congr (n := 3) e, north.rotate_congr (n := 3) e]
    cases h <;> rfl

end DragonCurve

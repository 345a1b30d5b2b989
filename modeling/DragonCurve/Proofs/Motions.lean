import DragonCurve.Proofs.Bearing

/-! Turtles as rigid motions. The state of a turtle is the motion of the grid that takes
a turtle at home to it, and carries every other turtle along. An action is carried out in
the turtle's own frame, so motions commute with it: a run from any start is the run from
home, carried to the start, and what a run does after another one is carried to where that
one ended. The reflection of the grid in its vertical axis commutes with the actions as
well if left and right turns are exchanged. All of this is exact arithmetic; a turtle on
the bounded grid makes the same run as long as the positions on the way are in range. -/

namespace DragonCurve

/-- Is the action a move? -/
def Action.moves (a : Action) : Bool := a == .forward

/-- The action with left and right exchanged. -/
def Action.exchange : Action → Action
  | .turnLeft => .turnRight
  | .turnRight => .turnLeft
  | a => a

theorem turning_eq_count (as : List Action) :
    turning as = as.count .turnRight - as.count .turnLeft := by
  induction as with
  | nil => rfl
  | cons a as ih =>
    rw [turning_cons, ih]
    cases a <;> simp [Action.turning] <;> ring

namespace Turtle

/-! ### Runs -/

/-- Carries out an action on a grid without edges. -/
def glide (t : Turtle) : Action → Turtle
  | .forward => { t with position := t.ahead }
  | .turnLeft => t.turnLeft
  | .turnRight => t.turnRight
  | .ignore => t

/-- Carries out actions in order on a grid without edges. -/
def roam (t : Turtle) (as : List Action) : Turtle := as.foldl glide t

/-- Carries out actions in order, and says of each whether the turtle moved. -/
def perform (t : Turtle) : List Action → Except Fault (Turtle × List Bool)
  | [] => .ok (t, [])
  | a :: as =>
    match t.apply a with
    | .error f => .error f
    | .ok (next, moved) => (next.perform as).map fun (last, moves) => (last, moved :: moves)

@[simp] theorem roam_nil (t : Turtle) : t.roam [] = t := rfl

@[simp] theorem roam_cons (t : Turtle) (a : Action) (as : List Action) :
    t.roam (a :: as) = (t.glide a).roam as := rfl

theorem roam_append (t : Turtle) (as bs : List Action) :
    t.roam (as ++ bs) = (t.roam as).roam bs := List.foldl_append

theorem apply_eq {t : Turtle} (ht : t.position.InRange) (a : Action) : t.apply a =
    if (t.glide a).position.InRange then .ok (t.glide a, a.moves) else .error .overflow := by
  cases a with
  | forward =>
    rw [apply, forward, glide]
    split_ifs <;> rfl
  | _ => exact (if_pos ht).symm

/-- The run on the bounded grid is the run on the unbounded one if all positions on the
way are in range, and a fault if one of them is not. -/
theorem perform_eq {t : Turtle} (ht : t.position.InRange) (as : List Action) : t.perform as =
    if ∀ cs ∈ as.inits, (t.roam cs).position.InRange then .ok (t.roam as, as.map Action.moves)
    else .error .overflow := by
  induction as generalizing t with
  | nil => simp [perform, ht]
  | cons a as ih =>
    rw [perform, apply_eq ht]
    by_cases hnext : (t.glide a).position.InRange
    · rw [if_pos hnext]
      -- the empty prefix stays at the start, and every other one begins with `a`
      simp only [ih hnext, List.inits_cons, List.forall_mem_cons, List.forall_mem_map, roam_nil,
        roam_cons, ht, true_and]
      split_ifs <;> rfl
    · rw [if_neg hnext, if_neg]
      intro hall
      exact hnext (hall [a] (by simp))

end Turtle

/-! ### Rotations and translations -/

theorem Point.facing_eq (p : Point) (h : Heading) : p.facing h = quarter^[h.index] p := by
  cases h <;> rfl

theorem Heading.rotate_index_rotate (h k : Heading) (n : ℤ) :
    h.rotate (k.rotate n).index = (h.rotate k.index).rotate n := by
  rw [rotate_rotate]
  apply rotate_congr
  rw [index_rotate]
  omega

theorem Heading.vector_rotate_index (h k : Heading) :
    (h.rotate k.index).vector = k.vector.facing h := by
  cases h <;> cases k <;> rfl

namespace Turtle

/-- The turtle `u`, carried along by the motion that takes home to `t`. -/
def carry (t u : Turtle) : Turtle :=
  ⟨t.position + u.position.facing t.heading, t.heading.rotate u.heading.index⟩

theorem carry_home (t : Turtle) : t.carry home = t := by
  have hposition : t.position + Point.origin.facing t.heading = t.position := by
    rw [Point.facing_origin]
    ext <;> simp
  rw [carry, home, hposition, Heading.index, Nat.cast_zero, Heading.rotate_zero]

/-- Motions commute with the actions. -/
theorem carry_glide (t u : Turtle) (a : Action) : (t.carry u).glide a = t.carry (u.glide a) := by
  cases a with
  | forward =>
    simp only [glide, carry, ahead, Heading.vector_rotate_index, Point.facing_add]
    congr 1
    ext <;> simp [Int.add_assoc]
  | turnLeft =>
    simp only [glide, carry, turnLeft, Heading.turnLeft_eq, Heading.rotate_index_rotate]
  | turnRight =>
    simp only [glide, carry, turnRight, Heading.turnRight_eq, Heading.rotate_index_rotate]
  | ignore => rfl

theorem carry_roam (t u : Turtle) (as : List Action) :
    (t.carry u).roam as = t.carry (u.roam as) := by
  induction as generalizing u with
  | nil => rfl
  | cons a as ih => rw [roam_cons, carry_glide, ih, roam_cons]

/-- A run from any start is the run from home, carried to the start. -/
theorem roam_eq_carry (t : Turtle) (as : List Action) : t.roam as = t.carry (home.roam as) := by
  rw [← carry_roam, carry_home]

theorem position_roam (t : Turtle) (as : List Action) : (t.roam as).position =
    t.position + Point.quarter^[t.heading.index] (home.roam as).position := by
  rw [roam_eq_carry t, carry, Point.facing_eq]

theorem index_roam (t : Turtle) (as : List Action) :
    (t.roam as).heading.index = (t.heading.index + (home.roam as).heading.index) % 4 := by
  have hheading : (t.roam as).heading = t.heading.rotate (home.roam as).heading.index := by
    rw [roam_eq_carry t, carry]
  have hindex := t.heading.index_rotate (home.roam as).heading.index
  rw [hheading]
  omega

theorem heading_roam (t : Turtle) (as : List Action) :
    (t.roam as).heading = t.heading.rotate (turning as) := by
  induction as generalizing t with
  | nil => exact t.heading.rotate_zero.symm
  | cons a as ih =>
    have hglide : (t.glide a).heading = t.heading.rotate a.turning := by
      cases a with
      | turnLeft => exact t.heading.turnLeft_eq
      | turnRight => exact t.heading.turnRight_eq
      | _ => exact t.heading.rotate_zero.symm
    rw [roam_cons, ih, hglide, Heading.rotate_rotate, turning_cons]

theorem index_roam_home (as : List Action) :
    ((home.roam as).heading.index : ℤ) = turning as % 4 := by
  rw [heading_roam, Heading.index_rotate, home, Heading.index, Nat.cast_zero, zero_add]

end Turtle

/-! ### Reflection -/

/-- The heading, reflected in the vertical axis. -/
def Heading.mirror (h : Heading) : Heading := north.rotate (-h.index)

theorem Heading.mirror_rotate (h : Heading) (n : ℤ) :
    (h.rotate n).mirror = h.mirror.rotate (-n) := by
  rw [mirror, mirror, rotate_rotate]
  apply rotate_congr
  rw [index_rotate]
  omega

theorem Heading.vector_mirror (h : Heading) : h.mirror.vector = ⟨-h.vector.x, h.vector.y⟩ := by
  cases h <;> rfl

theorem Heading.index_mirror (h : Heading) : (h.mirror.index : ℤ) = -h.index % 4 := by
  rw [mirror, index_rotate, index, Nat.cast_zero, zero_add]

namespace Turtle

/-- The turtle, reflected in the vertical axis. -/
def reflect (t : Turtle) : Turtle := ⟨⟨-t.position.x, t.position.y⟩, t.heading.mirror⟩

/-- The reflection commutes with the actions if left and right are exchanged. -/
theorem reflect_glide (t : Turtle) (a : Action) :
    t.reflect.glide a.exchange = (t.glide a).reflect := by
  cases a with
  | forward =>
    simp only [Action.exchange, glide, reflect, ahead, Heading.vector_mirror]
    congr 1
    ext
    · exact Int.neg_add.symm
    · rfl
  | turnLeft =>
    simp only [Action.exchange, glide, reflect, turnLeft, turnRight, Heading.turnLeft_eq,
      Heading.turnRight_eq, Heading.mirror_rotate, neg_neg]
  | turnRight =>
    simp only [Action.exchange, glide, reflect, turnLeft, turnRight, Heading.turnLeft_eq,
      Heading.turnRight_eq, Heading.mirror_rotate]
  | ignore => rfl

theorem reflect_roam (t : Turtle) (as : List Action) :
    t.reflect.roam (as.map Action.exchange) = (t.roam as).reflect := by
  induction as generalizing t with
  | nil => rfl
  | cons a as ih => rw [List.map_cons, roam_cons, reflect_glide, ih, roam_cons]

end Turtle

/-- Runs of the turtle are equivariant. A run from any start, with heading number `h`, is
the run from home, turned right by `h` quarters and moved to the start; it faults exactly
if it leaves the range. The heading counts right turns less left turns modulo four. With
left and right exchanged a run from home is reflected, and a run after another one is
turned and moved to where that one ended. -/
theorem turtle_equivariant {t : Turtle} (ht : t.position.InRange) (as bs : List Action) :
    let run := Turtle.home.roam
    let q := (run as).position
    let g := (run as).heading.index
    let h := t.heading.index
    (t.perform as =
      if ∀ cs ∈ as.inits, (t.roam cs).position.InRange then .ok (t.roam as, as.map Action.moves)
      else .error .overflow) ∧
    (t.roam as).position = t.position + Point.quarter^[h] q ∧
    (t.roam as).heading.index = (h + g) % 4 ∧
    (g : ℤ) = ((as.count .turnRight : ℤ) - as.count .turnLeft) % 4 ∧
    (run (as.map Action.exchange)).position = ⟨-q.x, q.y⟩ ∧
    ((run (as.map Action.exchange)).heading.index : ℤ) = -g % 4 ∧
    (run (as ++ bs)).position = q + Point.quarter^[g] (run bs).position ∧
    (run (as ++ bs)).heading.index = (g + (run bs).heading.index) % 4 := by
  intro run q g h
  have hreflect : run (as.map Action.exchange) = (run as).reflect := Turtle.reflect_roam .home as
  have happend : run (as ++ bs) = (run as).roam bs := Turtle.home.roam_append as bs
  rw [hreflect, happend, ← turning_eq_count]
  exact ⟨Turtle.perform_eq ht as, t.position_roam as, t.index_roam as, Turtle.index_roam_home as,
    rfl, (run as).heading.index_mirror, (run as).position_roam bs, (run as).index_roam bs⟩

/-- A run that ends on the right edge of the grid, and one more move from there. -/
theorem turtle_equivariant_edge :
    let t : Turtle := ⟨⟨2147483646, 7⟩, .east⟩
    let as : List Action := [.turnLeft, .forward, .ignore, .turnRight, .forward]
    let bs : List Action := [.forward]
    let run := Turtle.home.roam
    let q := (run as).position
    let g := (run as).heading.index
    let h := t.heading.index
    t.position.InRange ∧ (q = ⟨-1, 1⟩ ∧ g = 0 ∧ h = 1) ∧
      t.perform as = .ok (⟨⟨2147483647, 8⟩, .east⟩, [false, true, false, false, true]) ∧
      t.perform (as ++ bs) = .error .overflow ∧
      (t.perform as =
        if ∀ cs ∈ as.inits, (t.roam cs).position.InRange then
          .ok (t.roam as, as.map Action.moves)
        else .error .overflow) ∧
      (t.roam as).position = t.position + Point.quarter^[h] q ∧
      (t.roam as).heading.index = (h + g) % 4 ∧
      (g : ℤ) = ((as.count .turnRight : ℤ) - as.count .turnLeft) % 4 ∧
      (run (as.map Action.exchange)).position = ⟨-q.x, q.y⟩ ∧
      ((run (as.map Action.exchange)).heading.index : ℤ) = -g % 4 ∧
      (run (as ++ bs)).position = q + Point.quarter^[g] (run bs).position ∧
      (run (as ++ bs)).heading.index = (g + (run bs).heading.index) % 4 := by
  intro t as bs
  exact ⟨by decide, by decide, by decide, by decide, turtle_equivariant (by decide) as bs⟩

end DragonCurve

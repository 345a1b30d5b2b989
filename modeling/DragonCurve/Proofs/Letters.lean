import DragonCurve.Proofs.Bearing

/-! What characters tell the turtle. Three letters steer it, and every other character is
ignored, whatever becomes of it in a round. So the actions of a text are read off its
characters one by one, its moves are its letters `F`, and its turning is the number of its
letters `R` less that of its letters `L`. -/

namespace DragonCurve

/-- The characters with a standard meaning. -/
def steeringLetters : List Char := ['F', 'L', 'R']

theorem mem_steeringLetters {c : Char} : c ∈ steeringLetters ↔ c = 'F' ∨ c = 'L' ∨ c = 'R' := by
  simp [steeringLetters]

/-- What a character tells the turtle. -/
def charAction (c : Char) : Action := (Symbol.ofChar c).action

theorem charAction_eq (c : Char) : charAction c =
    if c = 'F' then .forward else if c = 'L' then .turnLeft
    else if c = 'R' then .turnRight else .ignore := by
  unfold charAction Symbol.ofChar
  split <;> simp_all [Symbol.action]

theorem charAction_eq_forward_iff {c : Char} : charAction c = .forward ↔ c = 'F' := by
  rw [charAction_eq]
  split_ifs <;> simp_all

theorem action_of_not_mem {c : Char} (h : c ∉ steeringLetters) :
    (Symbol.ofChar c).action = .ignore := by
  rw [mem_steeringLetters, not_or, not_or] at h
  rw [← charAction, charAction_eq, if_neg h.1, if_neg h.2.1, if_neg h.2.2]

theorem ofChar_injective : Function.Injective Symbol.ofChar :=
  Function.LeftInverse.injective Symbol.toChar_ofChar

theorem count_map_ofChar (cs : List Char) (c : Char) :
    (cs.map Symbol.ofChar).count (Symbol.ofChar c) = cs.count c :=
  List.count_map_of_injective cs _ ofChar_injective c

theorem map_charAction (cs : List Char) :
    cs.map charAction = (cs.map Symbol.ofChar).map Symbol.action := by
  rw [List.map_map]
  rfl

theorem count_map_charAction (cs : List Char) :
    (cs.map charAction).count .forward = cs.count 'F' := by
  rw [map_charAction, count_map_action]
  exact count_map_ofChar cs 'F'

/-- The letters `R` of a text less its letters `L`. -/
def netRight (cs : List Char) : ℤ := cs.count 'R' - cs.count 'L'

theorem turning_map_charAction (cs : List Char) : turning (cs.map charAction) = netRight cs := by
  rw [map_charAction, turning_map_action, netRight, ← count_map_ofChar, ← count_map_ofChar]
  rfl

namespace Sequence

theorem count_symbols (s : Sequence) (c : Char) :
    s.symbols.count (Symbol.ofChar c) = s.text.toList.count c :=
  count_map_ofChar s.text.toList c

theorem actions_eq (s : Sequence) : s.actions = s.text.toList.map charAction :=
  (map_charAction s.text.toList).symm

theorem actions_ofString (t : String) : (ofString t).actions = t.toList.map charAction :=
  (ofString t).actions_eq

theorem count_actions_ofString (t : String) :
    (ofString t).actions.count .forward = t.toList.count 'F' := by
  rw [actions_ofString, count_map_charAction]

theorem turning_ofString (t : String) :
    turning (ofString t).actions = (t.toList.count 'R' : ℤ) - t.toList.count 'L' := by
  rw [actions_ofString, turning_map_charAction, netRight]

end Sequence

end DragonCurve

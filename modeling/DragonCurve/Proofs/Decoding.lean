import DragonCurve.Proofs.Meanings

/-! Modules written in letters. A legend makes an action of every number, and four letters
are enough to write the actions down: `F`, `L`, `R`, and `a` for a number that is ignored,
whether the legend says so or ends before it. Lists of modules then become texts of the same
length, with a letter for each module that tells the turtle what the module does. So walking
the modules by the legend is walking the text, whatever the legend is. -/

namespace DragonCurve

/-- A letter that tells the turtle to carry out the action. -/
def Action.letter : Action → Char
  | .forward => 'F'
  | .turnLeft => 'L'
  | .turnRight => 'R'
  | .ignore => 'a'

theorem Action.charAction_letter (a : Action) : charAction a.letter = a := by
  cases a <;> rfl

namespace Legend

/-- The letter for a number, which is `a` beyond the end of the legend. -/
def letter (l : Legend) (id : ℕ) : Char :=
  match l.actions[id]? with
  | some a => a.letter
  | none => 'a'

theorem charAction_letter (l : Legend) (id : ℕ) : charAction (l.letter id) = l.action id := by
  rw [letter, action, Array.getD_eq_getD_getElem?]
  cases l.actions[id]? with
  | none => rfl
  | some a => exact a.charAction_letter

/-- The text of the numbers' letters. -/
def decode (l : Legend) (ids : List ℕ) : String := String.ofList (ids.map l.letter)

theorem actions_decode (l : Legend) (ids : List ℕ) :
    (Sequence.ofString (l.decode ids)).actions = ids.map l.action := by
  rw [Sequence.actions_ofString, decode, String.toList_ofList, List.map_map]
  exact List.map_congr_left fun id _ => l.charAction_letter id

end Legend

/-- Walking a list of modules by a legend is walking the text that the legend makes of their
numbers: the report and its absence are the same. Every list of numbers that fits is a list
of modules. -/
theorem walk_decoded {μ : Type*} [ModuleList μ] (c : Settings) (l : Legend) (budget : ℕ) :
    (∀ m : μ, l.walk c m budget =
      (Sequence.ofString (l.decode (ModuleList.ids m))).walk c budget false) ∧
    ∀ ids : List ℕ, ids.length ≤ ModuleList.capacity →
      ∃ m : μ, ModuleList.pushAll ModuleList.empty ids = (m, true) ∧ ModuleList.ids m = ids := by
  constructor
  · intro m
    exact Legend.walk_of_actions (l.actions_decode (ModuleList.ids m)).symm c budget
  · intro ids hfits
    have hempty : ModuleList.length (ModuleList.empty : μ) = 0 := ModuleList.length_empty
    obtain ⟨m, hm⟩ := ModuleList.pushAll_of_fits (m := (ModuleList.empty : μ)) (l := ids) (by omega)
    exact ⟨m, hm, ModuleList.ids_of_pushAll_empty hm⟩

/-- Two numbers for the same action, one that is ignored and one beyond the end. -/
theorem walk_decoded_short :
    let c := Settings.standard
    let l := Legend.ofList [.forward, .turnLeft, .forward, .ignore]
    [2, 1, 3, 7, 0].length ≤ ModuleList.capacity ∧ l.decode [2, 1, 3, 7, 0] = "FLaaF" ∧
      ∃ m, Modules.empty.pushAll [2, 1, 3, 7, 0] = (m, true) ∧
        m.walk c l 5 = (Sequence.ofString "FLaaF").walk c 5 false := by
  intro c l
  have hfits : [2, 1, 3, 7, 0].length ≤ ModuleList.capacity := by decide
  have htext : l.decode [2, 1, 3, 7, 0] = "FLaaF" := by decide
  obtain ⟨hwalk, hbuilt⟩ := walk_decoded (μ := Modules) c l 5
  obtain ⟨m, hm, hids⟩ := hbuilt _ hfits
  refine ⟨hfits, htext, m, hm, ?_⟩
  rw [Modules.walk, hwalk m, hids, htext]

end DragonCurve

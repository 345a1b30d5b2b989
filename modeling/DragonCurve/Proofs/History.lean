import DragonCurve.Proofs.Meanings

/-! Histories of legends. A legend is changed in three ways: all meanings are replaced by
those of a list, one number is given a meaning, or the steering letters are given theirs
through a table of names. Each change writes some numbers and leaves the others as they
were, however far it extends the legend. So after any history of changes a number means
what was last written to it, and is ignored if nothing was. -/

namespace DragonCurve

open NameTable

variable {τ : Type*} [NameTable τ]

namespace Legend

/-- A change of a legend, where tables of names are of type `τ`. -/
inductive Change (τ : Type*) where
  /-- The meanings of a list take the place of all meanings. -/
  | replaceAll (actions : List Action)
  /-- One number is given a meaning. -/
  | give (id : ℕ) (a : Action)
  /-- The steering letters are given theirs, as far as the table has them. -/
  | giveStandard (t : τ)

def Change.apply (l : Legend) : Change τ → Legend
  | replaceAll actions => ofList actions
  | give id a => l.set id a
  | giveStandard t => l.setStandard t

/-- The legend after changes, from the one without meanings. -/
def after (changes : List (Change τ)) : Legend := changes.foldl Change.apply empty

/-- The change writes the action to the number. -/
inductive Change.Writes : Change τ → ℕ → Action → Prop
  /-- Every number is written, and one beyond the end of the list is ignored from then on. -/
  | all (actions : List Action) (id : ℕ) :
    Writes (replaceAll actions) id (actions.getD id .ignore)
  | one (id : ℕ) (a : Action) : Writes (give id a) id a
  | forward {t : τ} {id : ℕ} : id? t "F" = some id → Writes (giveStandard t) id .forward
  | left {t : τ} {id : ℕ} : id? t "L" = some id → Writes (giveStandard t) id .turnLeft
  | right {t : τ} {id : ℕ} : id? t "R" = some id → Writes (giveStandard t) id .turnRight

/-- None of the changes writes to the number. -/
def Unwritten (id : ℕ) (changes : List (Change τ)) : Prop := ∀ c ∈ changes, ∀ a, ¬ c.Writes id a

/-- The last of the changes to write to the number wrote the action. -/
def LastWritten (id : ℕ) (a : Action) (changes : List (Change τ)) : Prop :=
  ∃ before c rest, changes = before ++ c :: rest ∧ c.Writes id a ∧ Unwritten id rest

/-! ### One change -/

theorem action_ofList (actions : List Action) (id : ℕ) :
    (ofList actions).action id = actions.getD id .ignore := by
  simp [ofList, action]

theorem Change.Writes.action_apply {c : Change τ} {id : ℕ} {a : Action} (h : c.Writes id a)
    (l : Legend) : (c.apply l).action id = a := by
  cases h with
  | all actions id => exact action_ofList actions id
  | one id a => exact (l.action_set id a id).trans (if_pos rfl)
  | forward ht => simp [apply, action_setStandard_eq, (id?_eq_some_iff _ _ _).mp ht]
  | left ht => simp [apply, action_setStandard_eq, (id?_eq_some_iff _ _ _).mp ht]
  | right ht => simp [apply, action_setStandard_eq, (id?_eq_some_iff _ _ _).mp ht]

theorem Change.action_apply_of_not_writes {c : Change τ} {id : ℕ} (h : ∀ a, ¬ c.Writes id a)
    (l : Legend) : (c.apply l).action id = l.action id := by
  cases c with
  | replaceAll actions => exact absurd (.all actions id) (h _)
  | give other a =>
    have hne : id ≠ other := by
      rintro rfl
      exact h a (.one id a)
    exact (l.action_set other a id).trans (if_neg hne)
  | giveStandard t =>
    have hforward : name? t id ≠ some "F" := fun e => h _ (.forward ((id?_eq_some_iff t _ _).mpr e))
    have hleft : name? t id ≠ some "L" := fun e => h _ (.left ((id?_eq_some_iff t _ _).mpr e))
    have hright : name? t id ≠ some "R" := fun e => h _ (.right ((id?_eq_some_iff t _ _).mpr e))
    rw [apply, action_setStandard_eq, if_neg hright, if_neg hleft, if_neg hforward]

/-! ### Histories -/

theorem after_append (before rest : List (Change τ)) :
    after (before ++ rest) = rest.foldl Change.apply (after before) := List.foldl_append

theorem action_foldl_of_unwritten {id : ℕ} {changes : List (Change τ)} (h : Unwritten id changes)
    (l : Legend) : (changes.foldl Change.apply l).action id = l.action id := by
  induction changes generalizing l with
  | nil => rfl
  | cons c changes ih =>
    obtain ⟨hc, hrest⟩ := List.forall_mem_cons.mp h
    rw [List.foldl_cons, ih hrest, Change.action_apply_of_not_writes hc]

theorem LastWritten.action_after {id : ℕ} {a : Action} {changes : List (Change τ)}
    (h : LastWritten id a changes) : (after changes).action id = a := by
  obtain ⟨before, c, rest, rfl, hc, hrest⟩ := h
  rw [after_append, List.foldl_cons, action_foldl_of_unwritten hrest, hc.action_apply]

/-- Some change is the last to write to a number, or none writes to it. -/
theorem lastWritten_or_unwritten (id : ℕ) (changes : List (Change τ)) :
    (∃ a, LastWritten id a changes) ∨ Unwritten id changes := by
  induction changes with
  | nil => exact Or.inr (List.forall_mem_nil _)
  | cons c changes ih =>
    -- the first change counts only if no later one writes to the number
    obtain ⟨a, before, d, rest, rfl, hd, hrest⟩ | hnone := ih
    · exact Or.inl ⟨a, c :: before, d, rest, rfl, hd, hrest⟩
    · by_cases hc : ∃ a, c.Writes id a
      · obtain ⟨a, hc⟩ := hc
        exact Or.inl ⟨a, [], c, changes, rfl, hc, hnone⟩
      · exact Or.inr (List.forall_mem_cons.mpr ⟨not_exists.mp hc, hnone⟩)

theorem action_after_iff {id : ℕ} {a : Action} {changes : List (Change τ)} :
    (after changes).action id = a ↔
      LastWritten id a changes ∨ Unwritten id changes ∧ a = .ignore := by
  constructor
  · rintro rfl
    obtain ⟨a, hlast⟩ | hnone := lastWritten_or_unwritten id changes
    · exact Or.inl (hlast.action_after.symm ▸ hlast)
    · exact Or.inr ⟨hnone, action_foldl_of_unwritten hnone empty⟩
  · rintro (hlast | ⟨hnone, rfl⟩)
    · exact hlast.action_after
    · exact action_foldl_of_unwritten hnone empty

/-! ### Giving the same meanings again -/

/-- A number that is not ignored has a place in the legend. -/
theorem getElem?_of_action {l : Legend} {id : ℕ} {a : Action} (h : l.action id = a)
    (ha : a ≠ .ignore) : l.actions[id]? = some a := by
  rw [action, Array.getD_eq_getD_getElem?] at h
  cases hget : l.actions[id]? with
  | none => exact absurd (by rw [← h, hget, Option.getD_none]) ha
  | some b => rw [← h, hget, Option.getD_some]

/-- Giving a number the meaning that it has changes nothing. -/
theorem set_of_action {l : Legend} {id : ℕ} {a : Action} (h : l.action id = a)
    (ha : a ≠ .ignore) : l.set id a = l := by
  have hget := getElem?_of_action h ha
  obtain ⟨hlt, -⟩ := Array.getElem?_eq_some_iff.mp hget
  have hfull : id + 1 - l.actions.size = 0 := by omega
  rw [set, hfull, Array.replicate_zero, Array.append_empty]
  congr 1
  apply Array.ext_getElem?
  intro i
  by_cases hi : id = i
  · rw [← hi, Array.getElem?_setIfInBounds_self_of_lt hlt, hget]
  · exact Array.getElem?_setIfInBounds_ne hi

theorem setStandard_of_actions {l : Legend} {t : τ}
    (h : ∀ p ∈ standardActions, ∀ id, id? t p.1 = some id → l.action id = p.2) :
    l.setStandard t = l := by
  have hstep : ∀ p ∈ standardActions, (id? t p.1).elim l (l.set · p.2) = l := by
    intro p hp
    have ha : p.2 ≠ .ignore := by
      revert p
      decide
    cases hid : id? t p.1 with
    | none => rfl
    | some id => exact set_of_action (h p hp id hid) ha
  simp only [standardActions, List.forall_mem_cons] at hstep
  obtain ⟨hforward, hleft, hright, -⟩ := hstep
  simp only [setStandard, standardActions, List.foldl_cons, List.foldl_nil, hforward, hleft, hright]

theorem setStandard_setStandard (l : Legend) (t : τ) :
    (l.setStandard t).setStandard t = l.setStandard t := by
  apply setStandard_of_actions
  intro p hp id hid
  have hwrites : (Change.giveStandard t).Writes id p.2 := by
    simp only [standardActions, List.mem_cons, List.not_mem_nil, or_false] at hp
    obtain rfl | rfl | rfl := hp
    · exact .forward hid
    · exact .left hid
    · exact .right hid
  exact hwrites.action_apply l

end Legend

/-- After any history of changes, a number means what was last written to it, and is
ignored if nothing was; so modules are walked by what was last written to their numbers.
Giving one number a meaning leaves all others as they were, and the standard meanings
given again through the same table change nothing. -/
theorem legend_last_write {μ : Type*} [ModuleList μ] (changes : List (Legend.Change τ)) :
    let l := Legend.after changes
    (∀ id a, l.action id = a ↔
      Legend.LastWritten id a changes ∨ Legend.Unwritten id changes ∧ a = .ignore) ∧
    (∀ (m : μ) (written : ℕ → Action),
      (∀ id ∈ ModuleList.ids m, Legend.LastWritten id (written id) changes ∨
        Legend.Unwritten id changes ∧ written id = .ignore) →
      l.actionsOf m = (ModuleList.ids m).map written) ∧
    (∀ id other a, other ≠ id → (l.set id a).action other = l.action other) ∧
    (∀ t : τ, (l.setStandard t).setStandard t = l.setStandard t) := by
  intro l
  refine ⟨fun id a => Legend.action_after_iff, fun m written hwritten => ?_,
    fun id other a hne => ?_, l.setStandard_setStandard⟩
  · rw [Legend.actionsOf]
    apply List.map_congr_left
    intro id hid
    exact Legend.action_after_iff.mpr (hwritten id hid)
  · rw [Legend.action_set, if_neg hne]

/-- Number one is given a meaning, loses it to a shorter list and is not given another when
the legend grows past it. -/
theorem legend_last_write_shrunk :
    let changes : List (Legend.Change Interner) :=
      [.replaceAll [.forward, .turnRight], .replaceAll [.turnLeft], .give 3 .forward]
    let l := Legend.after changes
    let m : Modules := { ids := #[1], size_le := by decide }
    Legend.LastWritten 1 .ignore changes ∧ l.action 1 = .ignore ∧ l.actionsOf m = [.ignore] ∧
      (l.set 2 .turnRight).action 1 = .ignore := by
  intro changes l m
  have hlast : Legend.LastWritten 1 .ignore changes := by
    refine ⟨[.replaceAll [.forward, .turnRight]], .replaceAll [.turnLeft], [.give 3 .forward], rfl,
      .all [.turnLeft] 1, ?_⟩
    rintro c hc a hwrites
    obtain rfl := List.mem_singleton.mp hc
    cases hwrites
  obtain ⟨haction, hactions, hset, -⟩ := legend_last_write (μ := Modules) changes
  have hone : l.action 1 = .ignore := (haction 1 .ignore).mpr (Or.inl hlast)
  have hmodules := hactions m (fun _ => .ignore) fun id hid => by
    obtain rfl : id = 1 := List.mem_singleton.mp hid
    exact Or.inl hlast
  exact ⟨hlast, hone, hmodules, (hset 2 1 .turnRight (by decide)).trans hone⟩

end DragonCurve

import DragonCurve.Legend
import DragonCurve.Proofs.Conversion
import DragonCurve.Proofs.Letters

/-! Meanings of converted texts. The standard meanings go by name: a number means
what the steering letter of its name does, and any other number what it meant
before. Walking the modules of a text is walking the text when the numbers of its
characters mean what the characters do. So the standard meanings make a legend
that was empty before true to every text, whether they are given after the
conversion or before it to a table that knows the steering letters of the text. A
legend with meanings of its own becomes true to a text only if it ignores the
other characters: giving the standard meanings takes none of these back. -/

namespace DragonCurve

open NameTable ModuleList

variable {τ μ : Type*} [NameTable τ] [ModuleList μ]

namespace Legend

/-! ### The standard meanings -/

/-- A named action is given to the number of the name, if there is one. -/
theorem action_elim_set (l : Legend) (t : τ) (name : String) (a : Action) (id : ℕ) :
    ((id? t name).elim l (l.set · a)).action id =
      if name? t id = some name then a else l.action id := by
  simp only [← id?_eq_some_iff]
  cases id? t name with
  | none => simp
  | some j => simp [action_set, eq_comm]

/-- A number means what the steering letter with its name does, and otherwise what it
meant before. -/
theorem action_setStandard_eq (l : Legend) (t : τ) (id : ℕ) :
    (l.setStandard t).action id =
      if name? t id = some "R" then .turnRight
      else if name? t id = some "L" then .turnLeft
      else if name? t id = some "F" then .forward
      else l.action id := by
  simp only [setStandard, standardActions, List.foldl_cons, List.foldl_nil, action_elim_set]

variable {l : Legend} {t : τ} {id : ℕ}

theorem action_setStandard_of_none (h : name? t id = none) :
    (l.setStandard t).action id = l.action id := by
  simp [action_setStandard_eq, h]

/-- A number with the name of a steering letter means what the letter does, and
with that of another character what it meant before. -/
theorem action_setStandard {c : Char} (h : name? t id = some c.toString) :
    (l.setStandard t).action id =
      if c ∈ steeringLetters then (Symbol.ofChar c).action else l.action id := by
  rw [action_setStandard_eq, h]
  rw [show "F" = 'F'.toString from rfl, show "L" = 'L'.toString from rfl,
    show "R" = 'R'.toString from rfl]
  simp only [Option.some.injEq, toString_inj]
  by_cases hmem : c ∈ steeringLetters
  · rw [if_pos hmem]
    obtain rfl | rfl | rfl := mem_steeringLetters.mp hmem
    all_goals rfl
  · rw [if_neg hmem]
    rw [mem_steeringLetters, not_or, not_or] at hmem
    simp [hmem]

/-- The text has no character but the steering letters that means anything. -/
def Plain (l : Legend) (t : τ) (s : Sequence) : Prop :=
  ∀ c ∈ s.text.toList, c ∉ steeringLetters → ∀ id, id? t c.toString = some id →
    l.action id = .ignore

theorem plain_empty (t : τ) (s : Sequence) : empty.Plain t s :=
  fun _ _ _ id _ => action_empty id

/-! ### Walks of modules -/

theorem length_actionsOf (l : Legend) (m : μ) : (l.actionsOf m).length = ModuleList.length m := by
  rw [actionsOf, List.length_map, ModuleList.length_eq]

/-- Modules that mean the actions of a sequence are walked like the sequence. -/
theorem walk_of_actions {m : μ} {s : Sequence} (h : l.actionsOf m = s.actions)
    (c : Settings) (budget : ℕ) : l.walk c m budget = s.walk c budget false := by
  have hlength : ModuleList.length m = s.length := by
    rw [← l.length_actionsOf m, h, Sequence.actions, List.length_map, Sequence.length_symbols]
  rw [walk, Sequence.walk, h, hlength]

end Legend

section

variable {s : Sequence} {t u : τ} {m : μ}

/-- Numbers that go by names mean what the characters do exactly when every number
of each character does. -/
theorem map_action_eq_iff {l : List ℕ} {cs : List Char} (legend : Legend)
    (h : List.Forall₂ (fun id c => name? u id = some c.toString) l cs) :
    l.map legend.action = cs.map (fun c => (Symbol.ofChar c).action) ↔
      ∀ c ∈ cs, ∀ id, name? u id = some c.toString →
        legend.action id = (Symbol.ofChar c).action := by
  induction h with
  | nil => simp
  | @cons id c l cs hname _ ih =>
    rw [List.map_cons, List.map_cons, List.cons.injEq, ih, List.forall_mem_cons]
    refine and_congr_left fun _ => ⟨fun he id' hname' => ?_, fun he => he id hname⟩
    rwa [eq_of_name? hname' hname]

theorem actions_toModules_iff (h : s.toModules t = (u, .ok m)) (l : Legend) :
    l.actionsOf m = s.actions ↔ ∀ c ∈ s.text.toList, ∀ id, name? u id = some c.toString →
      l.action id = (Symbol.ofChar c).action := by
  rw [Legend.actionsOf, Sequence.actions, Sequence.symbols, List.map_map]
  exact map_action_eq_iff l (Sequence.names_toModules h).2

/-- With the standard meanings, the modules mean the actions of the text exactly
when the legend gave no meaning to its other characters before. -/
theorem actions_setStandard_iff (h : s.toModules t = (u, .ok m)) (l : Legend) :
    (l.setStandard u).actionsOf m = s.actions ↔ l.Plain u s := by
  rw [actions_toModules_iff h]
  constructor
  · intro hact c hc hmem id hid
    have hname := (id?_eq_some_iff u _ _).mp hid
    have he := hact c hc id hname
    rwa [Legend.action_setStandard hname, if_neg hmem, action_of_not_mem hmem] at he
  · intro hplain c hc id hname
    rw [Legend.action_setStandard hname]
    split_ifs with hmem
    · rfl
    · rw [hplain c hc hmem id ((id?_eq_some_iff u _ _).mpr hname), action_of_not_mem hmem]

/-- The standard meanings may also be given before the conversion, as long as the
table knows the steering letters of the text by then. -/
theorem actions_setStandard_of_known (h : s.toModules t = (u, .ok m))
    (hknown : ∀ c ∈ steeringLetters, c ∈ s.text.toList → (id? t c.toString).isSome) :
    (Legend.empty.setStandard t).actionsOf m = s.actions := by
  rw [actions_toModules_iff h]
  intro c hc id hname
  obtain ⟨hext, -⟩ := Sequence.names_toModules h
  by_cases hmem : c ∈ steeringLetters
  · obtain ⟨id', hid'⟩ := Option.isSome_iff_exists.mp (hknown c hmem hc)
    have hname' := (id?_eq_some_iff t _ _).mp hid'
    obtain rfl := eq_of_name? (hext _ _ hname') hname
    rw [Legend.action_setStandard hname', if_pos hmem]
  · rw [action_of_not_mem hmem]
    cases ht : name? t id with
    | none => rw [Legend.action_setStandard_of_none ht, Legend.action_empty]
    | some name =>
      obtain rfl : name = c.toString := Option.some.inj ((hext id name ht).symm.trans hname)
      rw [Legend.action_setStandard ht, if_neg hmem, Legend.action_empty]

/-- Walking the modules of a text by the standard meanings is walking the text, in
every field of the report and also where it ends in a fault. The meanings may be
given before the conversion if the steering letters of the text are known then. -/
theorem walk_toModules (h : s.toModules t = (u, .ok m)) (c : Settings) (budget : ℕ) :
    (Legend.empty.setStandard u).walk c m budget = s.walk c budget false ∧
      ((∀ ch ∈ steeringLetters, ch ∈ s.text.toList → (id? t ch.toString).isSome) →
        (Legend.empty.setStandard t).walk c m budget = s.walk c budget false) := by
  have hafter := (actions_setStandard_iff h .empty).mpr (Legend.plain_empty u s)
  exact ⟨Legend.walk_of_actions hafter c budget, fun hknown =>
    Legend.walk_of_actions (actions_setStandard_of_known h hknown) c budget⟩

/-- A text of new characters and one known letter, which is its only steering
letter. -/
theorem walk_toModules_known :
    let s := Sequence.ofString "aF𝄞Fb"
    let t := ((Interner.empty 64).intern "F").1
    ∃ u, ∃ m : Modules, s.toModules t = (u, .ok m) ∧
      (∀ ch ∈ steeringLetters, ch ∈ s.text.toList → (id? t ch.toString).isSome) ∧
      (Legend.empty.setStandard u).walk .standard m 5 = s.walk .standard 5 false ∧
      (Legend.empty.setStandard t).walk .standard m 5 = s.walk .standard 5 false := by
  intro s t
  obtain ⟨hname, u, m, h⟩ :
      name? t 0 = some "F" ∧ ∃ u, ∃ m : Modules, s.toModules t = (u, .ok m) :=
    Sequence.toModules_intern_empty (by decide) (by decide)
  have hknown : ∀ ch ∈ steeringLetters, ch ∈ s.text.toList → (id? t ch.toString).isSome := by
    intro ch hmem hch
    obtain rfl | rfl | rfl := mem_steeringLetters.mp hmem
    · exact Option.isSome_of_mem ((id?_eq_some_iff t "F" 0).mpr hname)
    · exact absurd hch (by decide)
    · exact absurd hch (by decide)
  have hw := walk_toModules h .standard 5
  exact ⟨u, m, h, hknown, hw.1, hw.2 hknown⟩

/-- The standard meanings reach the steering letters whatever the legend said
before, and nothing else. So the modules of a text mean its actions when the legend
gave no meaning to its other characters, and are then walked like the text. -/
theorem meanings_setStandard (h : s.toModules t = (u, .ok m)) (l : Legend) :
    let l' := l.setStandard u
    (∀ id, id? u "F" = some id → l'.action id = .forward) ∧
      (∀ id, id? u "L" = some id → l'.action id = .turnLeft) ∧
      (∀ id, id? u "R" = some id → l'.action id = .turnRight) ∧
      (∀ c ∉ steeringLetters, ∀ id, id? u c.toString = some id →
        l'.action id = l.action id) ∧
      (l'.actionsOf m = s.actions ↔ l.Plain u s) ∧
      (l.Plain u s → ∀ c budget, l'.walk c m budget = s.walk c budget false) := by
  intro l'
  have hsteer : ∀ c ∈ steeringLetters, ∀ id, id? u c.toString = some id →
      l'.action id = (Symbol.ofChar c).action := by
    intro c hmem id hid
    rw [Legend.action_setStandard ((id?_eq_some_iff u _ _).mp hid), if_pos hmem]
  have hactions := actions_setStandard_iff h l
  refine ⟨hsteer 'F' (by decide), hsteer 'L' (by decide), hsteer 'R' (by decide), ?_, hactions,
    fun hplain => Legend.walk_of_actions (hactions.mpr hplain)⟩
  intro c hmem id hid
  rw [Legend.action_setStandard ((id?_eq_some_iff u _ _).mp hid), if_neg hmem]

/-- A legend that turns left at the number that becomes that of `F`. -/
theorem meanings_setStandard_plain :
    let s := Sequence.ofString "FaR"
    let t := ((Interner.empty 64).intern "a").1
    let l := Legend.ofList [.ignore, .turnLeft]
    ∃ u, ∃ m : Modules, s.toModules t = (u, .ok m) ∧ l.Plain u s ∧
      let l' := l.setStandard u
      (∀ id, id? u "F" = some id → l'.action id = .forward) ∧
        (∀ id, id? u "L" = some id → l'.action id = .turnLeft) ∧
        (∀ id, id? u "R" = some id → l'.action id = .turnRight) ∧
        (∀ c ∉ steeringLetters, ∀ id, id? u c.toString = some id →
          l'.action id = l.action id) ∧
        (l'.actionsOf m = s.actions ↔ l.Plain u s) ∧
        (l.Plain u s → ∀ c budget, l'.walk c m budget = s.walk c budget false) := by
  intro s t l
  obtain ⟨hname, u, m, h⟩ :
      name? t 0 = some "a" ∧ ∃ u, ∃ m : Modules, s.toModules t = (u, .ok m) :=
    Sequence.toModules_intern_empty (by decide) (by decide)
  have hplain : l.Plain u s := by
    intro c hc hmem id hid
    obtain rfl | rfl | rfl : c = 'F' ∨ c = 'a' ∨ c = 'R' := by
      simpa [s] using hc
    · exact absurd (by decide) hmem
    · have ha : name? u 0 = some "a" := (Sequence.names_toModules h).1 0 "a" hname
      obtain rfl := eq_of_name? ((id?_eq_some_iff u _ _).mp hid) ha
      rfl
    · exact absurd (by decide) hmem
  exact ⟨u, m, h, hplain, meanings_setStandard h l⟩

/-- Where `a` meant a move, the standard meanings leave it one. -/
theorem meanings_setStandard_moving_a :
    let t := ((Interner.empty 64).intern "a").1
    let l := Legend.ofList [.forward]
    ∃ u, ∃ m : Modules, Sequence.seed.toModules t = (u, .ok m) ∧ id? u "a" = some 0 ∧
      (l.setStandard u).action 0 = .forward ∧
      ((l.setStandard u).walk .standard m 5).value = .ok
        { finalPosition := ⟨0, 2⟩, totalSteps := 2, sequenceLength := 2, looped := false,
          waypoints := [⟨1, ⟨0, 1⟩, .north⟩, ⟨2, ⟨0, 2⟩, .north⟩] } ∧
      (Sequence.seed.walk .standard 5 false).value = .ok
        { finalPosition := ⟨0, 1⟩, totalSteps := 1, sequenceLength := 2, looped := false,
          waypoints := [⟨1, ⟨0, 1⟩, .north⟩] } := by
  intro t l
  obtain ⟨hname, u, m, h⟩ :
      name? t 0 = some "a" ∧ ∃ u, ∃ m : Modules, Sequence.seed.toModules t = (u, .ok m) :=
    Sequence.toModules_intern_empty (by decide) (by decide)
  obtain ⟨hext, hnames⟩ := Sequence.names_toModules h
  have ha : name? u 0 = some 'a'.toString := hext 0 "a" hname
  have hmove : (l.setStandard u).action 0 = .forward := by
    rw [Legend.action_setStandard ha, if_neg (by decide)]
    rfl
  have hactions : (l.setStandard u).actionsOf m = (Sequence.ofString "FF").actions := by
    have hseed : Sequence.seed.text.toList = ['F', 'a'] := by decide
    rw [hseed] at hnames
    obtain ⟨i, rest, hF, hrest, hids⟩ := List.forall₂_cons_right_iff.mp hnames
    obtain ⟨j, rest', ha', hnil, rfl⟩ := List.forall₂_cons_right_iff.mp hrest
    obtain rfl := List.forall₂_nil_right_iff.mp hnil
    obtain rfl := eq_of_name? ha' ha
    rw [Legend.actionsOf, hids, List.map_cons, List.map_singleton, hmove,
      Legend.action_setStandard hF]
    rfl
  refine ⟨u, m, h, (id?_eq_some_iff u _ _).mpr ha, hmove, ?_, by decide⟩
  rw [Legend.walk_of_actions hactions]
  decide

end

end DragonCurve

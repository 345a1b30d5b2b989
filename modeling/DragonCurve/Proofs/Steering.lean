import DragonCurve.Proofs.Following
import DragonCurve.Proofs.Letters
import Mathlib.Logic.Relation

/-! What steers a walk. A walk sees of its text only the headings at the moves: two texts
with the same headings are walked along routes that go through the same places, and make
the same records on the way. Round and round the turning behind the last move counts as
well, as the next pass begins with it. So whatever does not move and turns by whole turns
can be left out of a text or put in anywhere, and only the reported length shows it. -/

namespace DragonCurve

/-! ### Headings of a list -/

/-- The headings in which the moves of a list are made. -/
def headings (as : List Action) : List Heading := (bearings 0 as).map Heading.north.rotate

theorem length_headings (as : List Action) : (headings as).length = as.count .forward := by
  rw [headings, List.length_map, length_bearings]

theorem count_eq_of_headings {as bs : List Action} (h : headings as = headings bs) :
    as.count .forward = bs.count .forward := by
  rw [← length_headings, h, length_headings]

/-- Once over a list its route takes its headings. -/
theorem getElem?_headings {as : List Action} {k : ℕ} (hk : k < as.count .forward) :
    (headings as)[k]? = some ((route as).heading k) := by
  rw [← length_bearings 0] at hk
  rw [headings, List.getElem?_map, List.getElem?_eq_getElem hk, Option.map_some, Route.heading,
    route_first (List.getElem?_eq_getElem hk)]

theorem heading_route {as bs : List Action} (h : headings as = headings bs) {k : ℕ}
    (hk : k < as.count .forward) : (route as).heading k = (route bs).heading k := by
  have hk' : k < bs.count .forward := count_eq_of_headings h ▸ hk
  apply Option.some.inj
  rw [← getElem?_headings hk, ← getElem?_headings hk', h]

/-- The heading of any move is that of a move of the first pass, turned by the passes before. -/
theorem heading_route_mod (as : List Action) (k : ℕ) : (route as).heading k =
    ((route as).heading (k % as.count .forward)).rotate
      ((k / as.count .forward : ℕ) * turning as) := by
  have hfirst : route as k = route as (k % as.count .forward) +
      (k / as.count .forward : ℕ) * turning as := by
    simp [route]
  rw [Route.heading, hfirst, ← Heading.rotate_rotate, Route.heading]

/-- With the same turning of a pass, up to whole turns, all later passes agree as well. -/
theorem heading_route_of_turning {as bs : List Action} (h : headings as = headings bs)
    (hf : 0 < as.count .forward) (ht : turning as % 4 = turning bs % 4) (k : ℕ) :
    (route as).heading k = (route bs).heading k := by
  have hcount := count_eq_of_headings h
  have hpasses : ∀ p : ℕ, (p * turning as) % 4 = (p * turning bs) % 4 :=
    fun p => Int.ModEq.mul_left p ht
  rw [heading_route_mod as, heading_route_mod bs, ← hcount, heading_route h (Nat.mod_lt k hf)]
  exact Heading.rotate_congr _ (hpasses _)

/-- What neither moves nor turns, up to whole turns, leaves the headings as they are. -/
theorem headings_insert (us vs : List Action) {ws : List Action} (hm : ws.count .forward = 0)
    (ht : turning ws % 4 = 0) : headings (us ++ ws ++ vs) = headings (us ++ vs) := by
  have hw : bearings (turning us) ws = [] := by
    rw [← List.length_eq_zero_iff, length_bearings, hm]
  have hv : ∀ x ∈ bearings 0 vs,
      Heading.north.rotate (x + (turning us + turning ws)) =
        Heading.north.rotate (x + turning us) :=
    fun x _ => Heading.rotate_congr _ (by omega)
  have hturned : ∀ b, bearings b vs = (bearings 0 vs).map (· + b) := by
    intro b
    rw [← bearings_add, zero_add]
  simp only [headings, bearings_append, zero_add, turning_append, hw, List.append_nil,
    List.map_append, hturned (turning us + turning ws), hturned (turning us), List.map_map]
  exact congrArg _ (List.map_congr_left hv)

theorem turning_insert (us vs : List Action) {ws : List Action} (ht : turning ws % 4 = 0) :
    turning (us ++ ws ++ vs) % 4 = turning (us ++ vs) % 4 := by
  simp only [turning_append]
  omega

/-! ### Headings of a text -/

/-- Both texts have equally many letters `F` and have turned equally far before each of them,
up to whole turns. -/
def SameHeadings (cs ds : List Char) : Prop :=
  cs.count 'F' = ds.count 'F' ∧ ∀ u v u' v', cs = u ++ 'F' :: v → ds = u' ++ 'F' :: v' →
    u.count 'F' = u'.count 'F' → netRight u % 4 = netRight u' % 4

/-- A text can be split at each of its letters `F`. -/
theorem exists_split {cs : List Char} {i : ℕ} (hi : i < cs.count 'F') :
    ∃ u v, cs = u ++ 'F' :: v ∧ u.count 'F' = i := by
  induction cs generalizing i with
  | nil => exact absurd hi (Nat.not_lt_zero i)
  | cons c cs ih =>
    by_cases hc : c = 'F'
    · subst hc
      cases i with
      | zero => exact ⟨[], cs, rfl, rfl⟩
      | succ i =>
        rw [List.count_cons_self] at hi
        obtain ⟨u, v, rfl, rfl⟩ := ih (Nat.lt_of_succ_lt_succ hi)
        exact ⟨'F' :: u, v, rfl, List.count_cons_self⟩
    · rw [List.count_cons_of_ne hc] at hi
      obtain ⟨u, v, rfl, rfl⟩ := ih hi
      exact ⟨c :: u, v, rfl, List.count_cons_of_ne hc⟩

/-- The heading at a letter `F` is told by the text before it. -/
theorem getElem?_headings_split (u v : List Char) :
    (headings ((u ++ 'F' :: v).map charAction))[u.count 'F']? =
      some (Heading.north.rotate (netRight u)) := by
  have hlen : (bearings 0 (u.map charAction)).length = u.count 'F' := by
    rw [length_bearings, count_map_charAction]
  rw [headings, List.map_append, bearings_append, List.getElem?_map, ← hlen,
    List.getElem?_append_right le_rfl, Nat.sub_self, zero_add, turning_map_charAction]
  rfl

/-- Turning equally far before each move is taking the same headings. -/
theorem sameHeadings_iff {cs ds : List Char} :
    SameHeadings cs ds ↔ headings (cs.map charAction) = headings (ds.map charAction) := by
  have hlength : ∀ es : List Char, (headings (es.map charAction)).length = es.count 'F' :=
    fun es => by rw [length_headings, count_map_charAction]
  constructor
  · rintro ⟨hcount, hturned⟩
    refine List.ext_getElem? fun i => ?_
    by_cases hi : i < cs.count 'F'
    · obtain ⟨u, v, hcs, hu⟩ := exists_split hi
      obtain ⟨u', v', hds, hu'⟩ := exists_split (hcount ▸ hi)
      have hsame := hturned u v u' v' hcs hds (hu.trans hu'.symm)
      rw [hcs, hds, ← hu, getElem?_headings_split, hu, ← hu', getElem?_headings_split,
        Heading.rotate_congr _ hsame]
    · rw [List.getElem?_eq_none (by rw [hlength]; omega),
        List.getElem?_eq_none (by rw [hlength]; omega)]
  · intro h
    refine ⟨by rw [← hlength, h, hlength], ?_⟩
    rintro u v u' v' rfl rfl hcount
    have hu := getElem?_headings_split u v
    rw [h, hcount, getElem?_headings_split, Option.some.injEq] at hu
    exact (Heading.mod_eq_of_rotate_eq hu).symm

instance (cs ds : List Char) : Decidable (SameHeadings cs ds) :=
  decidable_of_iff _ sameHeadings_iff.symm

/-! ### What does not steer -/

/-- Texts that do not move and that turn by whole turns: a character without a meaning, a turn
and its opposite, four turns to one side. -/
inductive Idle : List Char → Prop
  | ignored {c : Char} (h : c ∉ steeringLetters) : Idle [c]
  | leftRight : Idle ['L', 'R']
  | rightLeft : Idle ['R', 'L']
  | lefts : Idle ['L', 'L', 'L', 'L']
  | rights : Idle ['R', 'R', 'R', 'R']

/-- The second text is the first with an idle one put in somewhere. -/
inductive Inserted : List Char → List Char → Prop
  | at_split (u v : List Char) {w : List Char} (h : Idle w) : Inserted (u ++ v) (u ++ w ++ v)

theorem Idle.count_eq_zero {w : List Char} (h : Idle w) : w.count 'F' = 0 := by
  cases h with
  | ignored h =>
    have hne := mt (fun e => mem_steeringLetters.mpr (Or.inl e)) h
    simp [List.count_cons_of_ne hne]
  | _ => rfl

theorem Idle.netRight_mod {w : List Char} (h : Idle w) : netRight w % 4 = 0 := by
  cases h with
  | ignored h =>
    rw [mem_steeringLetters, not_or, not_or] at h
    simp [netRight, List.count_cons_of_ne h.2.1, List.count_cons_of_ne h.2.2]
  | _ => rfl

/-- However often idle texts are put in and left out, the headings stay, and the turning of
the whole text, up to whole turns. -/
theorem headings_of_inserted {cs ds : List Char} (h : Relation.EqvGen Inserted cs ds) :
    headings (cs.map charAction) = headings (ds.map charAction) ∧
      netRight cs % 4 = netRight ds % 4 := by
  induction h with
  | rel _ _ h =>
    obtain ⟨u, v, hw⟩ := h
    have hm := (count_map_charAction _).trans hw.count_eq_zero
    have ht := hw.netRight_mod
    rw [← turning_map_charAction] at ht
    simp only [← turning_map_charAction, List.map_append]
    exact ⟨(headings_insert _ _ hm ht).symm, (turning_insert _ _ ht).symm⟩
  | refl => exact ⟨rfl, rfl⟩
  | symm _ _ _ ih => exact ⟨ih.1.symm, ih.2.symm⟩
  | trans _ _ _ _ _ ih₁ ih₂ => exact ⟨ih₁.1.trans ih₂.1, ih₁.2.trans ih₂.2⟩

/-! ### Walks that are steered alike -/

namespace Sequence

/-- The walks over two sequences report the same except for the length of the sequence, or end
in the same fault; and they tell the same on the way. -/
def WalkAlike (c : Settings) (budget : ℕ) (looped : Bool) (s t : Sequence) : Prop :=
  (t.walk c budget looped).value =
      (s.walk c budget looped).value.map (fun r => { r with sequenceLength := t.length }) ∧
    (t.walk c budget looped).events = (s.walk c budget looped).events

variable {s t : Sequence} {looped : Bool}

/-- Walks over sequences with the same headings go alike. -/
theorem walkAlike_of_headings (h : headings s.actions = headings t.actions)
    (hloop : looped = true → turning s.actions % 4 = turning t.actions % 4) (c : Settings)
    (budget : ℕ) : WalkAlike c budget looped s t := by
  have hcount := count_eq_of_headings h
  have hn : Walk.moveCount t.actions budget looped = Walk.moveCount s.actions budget looped := by
    rw [Walk.moveCount, Walk.moveCount, hcount]
  have habandons : Walk.abandons t.actions budget looped =
      Walk.abandons s.actions budget looped := by
    rw [Walk.abandons, Walk.abandons, hcount]
  have hroute : ∀ k < Walk.moveCount s.actions budget looped,
      (route s.actions).heading k = (route t.actions).heading k := by
    intro k hk
    cases looped with
    | false => exact heading_route h (hk.trans_le (Nat.min_le_right _ _))
    | true =>
      have hf : 0 < s.actions.count .forward := by
        rw [Nat.pos_iff_ne_zero]
        intro h0
        simp [Walk.moveCount, h0] at hk
      exact heading_route_of_turning h hf (hloop rfl) k
  rw [WalkAlike, walk_eq, walk_eq, hn, survey, survey, hn, habandons]
  refine ⟨?_, rfl⟩
  by_cases hsafe : (route s.actions).Safe (Walk.moveCount s.actions budget looped)
  · rw [if_pos hsafe, if_pos ((Route.safe_congr_heading hroute).mp hsafe),
      Route.place_congr_heading hroute _ le_rfl, Route.waypoints_congr_heading hroute]
    rfl
  · rw [if_neg hsafe, if_neg (mt (Route.safe_congr_heading hroute).mpr hsafe)]
    rfl

theorem walkAlike_ofString {s t : String}
    (h : headings (s.toList.map charAction) = headings (t.toList.map charAction))
    (hloop : looped = true → netRight s.toList % 4 = netRight t.toList % 4) (c : Settings)
    (budget : ℕ) : WalkAlike c budget looped (ofString s) (ofString t) := by
  refine walkAlike_of_headings ?_ (fun e => ?_) c budget
  · rw [actions_ofString, actions_ofString, h]
  · rw [actions_ofString, actions_ofString, turning_map_charAction, turning_map_charAction, hloop e]

end Sequence

/-- A walk depends only on the headings at its moves, and round and round on the turning of
the whole text as well. So what neither moves nor turns, up to whole turns, can be put in or
left out anywhere. -/
theorem walkAlike_of_sameHeadings (c : Settings) (b : ℕ) :
    (∀ s t : String, SameHeadings s.toList t.toList →
      Sequence.WalkAlike c b false (.ofString s) (.ofString t) ∧
      (netRight s.toList % 4 = netRight t.toList % 4 →
        Sequence.WalkAlike c b true (.ofString s) (.ofString t))) ∧
    ∀ s t : String, Relation.EqvGen Inserted s.toList t.toList →
      ∀ looped, Sequence.WalkAlike c b looped (.ofString s) (.ofString t) := by
  constructor
  · intro s t h
    have hheadings := sameHeadings_iff.mp h
    exact ⟨Sequence.walkAlike_ofString hheadings (fun e => absurd e Bool.false_ne_true) c b,
      fun ht => Sequence.walkAlike_ofString hheadings (fun _ => ht) c b⟩
  · intro s t h looped
    obtain ⟨hheadings, ht⟩ := headings_of_inserted h
    exact Sequence.walkAlike_ofString hheadings (fun _ => ht) c b

/-- A left turn is three right ones, also behind the last move, where it counts only round and
round; and an unknown character with four right turns may as well be left out. -/
theorem walkAlike_of_sameHeadings_turns :
    let c := Settings.standard
    (SameHeadings "FLFR".toList "bFRRRFLxLL".toList ∧
      netRight "FLFR".toList % 4 = netRight "bFRRRFLxLL".toList % 4 ∧
      Sequence.WalkAlike c 7 false (.ofString "FLFR") (.ofString "bFRRRFLxLL") ∧
      Sequence.WalkAlike c 7 true (.ofString "FLFR") (.ofString "bFRRRFLxLL")) ∧
    Relation.EqvGen Inserted "FéRRRRF".toList "FF".toList ∧
      Sequence.WalkAlike c 7 true (.ofString "FéRRRRF") (.ofString "FF") := by
  intro c
  have hsame : SameHeadings "FLFR".toList "bFRRRFLxLL".toList := by decide
  have hturning : netRight "FLFR".toList % 4 = netRight "bFRRRFLxLL".toList % 4 := by decide
  have hinserted : Relation.EqvGen Inserted "FéRRRRF".toList "FF".toList := by
    have hletter : Inserted "FRRRRF".toList "FéRRRRF".toList :=
      .at_split ['F'] ['R', 'R', 'R', 'R', 'F'] (.ignored (by decide))
    have hturns : Inserted "FF".toList "FRRRRF".toList := .at_split ['F'] ['F'] .rights
    exact ((Relation.EqvGen.rel _ _ hturns).trans _ _ _ (.rel _ _ hletter)).symm
  obtain ⟨honce, hround⟩ := (walkAlike_of_sameHeadings c 7).1 _ _ hsame
  exact ⟨⟨hsame, hturning, honce, hround hturning⟩, hinserted,
    (walkAlike_of_sameHeadings c 7).2 _ _ hinserted true⟩

end DragonCurve
